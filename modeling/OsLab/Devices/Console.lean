import OsLab.Kernel.Boot

/-!
# How far down the console writes

`screen_put` wraps the column at 80 and never looks at the row: there is no scrolling. This file
says how far a text goes down, in its own terms, and when that is too far.

* `lineBreaks x text`: the line breaks of a text that starts in column `x` of an 80-column page.
  A line ends with a newline, or with the character that fills it (a printable one in column 79, or
  a tab from column 72 on); a backspace and a return stay in their line.
* `screenPuts_cursor`: while the breaks fit on the page, `screen_put` keeps the column and the row
  that this count predicts.
* `staysOnScreen_iff`: from the cleared screen, every cell written and every cursor position is on
  the 80×25 screen if and only if the text has fewer than 25 line breaks.
* `newlines_leave_screen`: 25 newlines put the cursor on row 25.
-/

namespace OsLab

open OsLab.Lib

variable {s s' : Screen} {x : ℕ} {ch : UInt8} {text : List UInt8}

/-! ### Text on a page of 80 columns -/

/-- The column behind a character that is put in column `x`, before a full line is broken. -/
def column (x : ℕ) (ch : UInt8) : ℕ :=
  if ch = 0x08 then x - 1
  else if ch = 0x09 then (x / 8 + 1) * 8
  else if ch = 0x0D ∨ ch = 0x0A then 0
  else if charVal ch ≥ 0x20 then x + 1
  else x

/-- The character ends its line. -/
def endsLine (x : ℕ) (ch : UInt8) : Bool := ch = 0x0A ∨ 80 ≤ column x ch

/-- The column in which the next character is put. -/
def nextColumn (x : ℕ) (ch : UInt8) : ℕ := if endsLine x ch then 0 else column x ch

/-- The column behind a text. -/
def textColumn (x : ℕ) (text : List UInt8) : ℕ := text.foldl nextColumn x

/-- The number of line breaks of a text that starts in column `x`. -/
def lineBreaks : ℕ → List UInt8 → ℕ
  | _, [] => 0
  | x, ch :: text => (endsLine x ch).toNat + lineBreaks (nextColumn x ch) text

/-- The line breaks of a text of two parts. -/
theorem lineBreaks_append (x : ℕ) (a b : List UInt8) :
    lineBreaks x (a ++ b) = lineBreaks x a + lineBreaks (textColumn x a) b := by
  induction a generalizing x with
  | nil => simp [lineBreaks, textColumn]
  | cons c a ih =>
    rw [List.cons_append, lineBreaks, ih, lineBreaks, Nat.add_assoc]
    rfl

/-- The column of the next character is on the screen. -/
theorem nextColumn_lt (x : ℕ) (ch : UInt8) : nextColumn x ch < 80 := by
  unfold nextColumn
  split_ifs with h
  · decide
  · simp only [endsLine, decide_eq_true_eq, not_or] at h
    omega

/-- So is the one behind a text. -/
theorem textColumn_lt (hx : x < 80) (text : List UInt8) : textColumn x text < 80 := by
  induction text generalizing x with
  | nil => exact hx
  | cons c text ih => exact ih (nextColumn_lt x c)

/-! ### `screen_put` -/

/-- `screen_clear`. -/
def screenClear (s : Screen) : Screen where
  vm := fun i => if i < 80 * 25 then 0x20 ||| textAttribute else s.vm i
  cursorX := 0
  cursorY := 0

/-- `initScreen` clears the screen. -/
theorem initScreen_screen (k : Kernel) : (initScreen k).screen = screenClear k.screen := rfl

/-- The cell that `screen_put` stores to. -/
def writtenCell (ch : UInt8) (s : Screen) : Option ℕ :=
  if charVal ch ≥ 0x20 then some (s.cursorY.toNat * 80 + s.cursorX.toNat) else none

/-- The cursor is on the screen. -/
structure OnScreen (s : Screen) : Prop where
  column : s.cursorX.toNat < 80
  row : s.cursorY.toNat < 25

/-- The video memory after a call: nothing but `writtenCell` is stored to. -/
theorem screenPut_vm (h : screenPut ch s = .ok s') :
    s'.vm = match writtenCell ch s with
      | none => s.vm
      | some i => Function.update s.vm i (ch.toUInt16 ||| textAttribute) := by
  have hwrap : ∀ t : Screen, t.wrap.vm = t.vm := by
    intro t
    unfold Screen.wrap
    split_ifs <;> rfl
  have hsmall : charVal 0x08 < 0x20 ∧ charVal 0x09 < 0x20 ∧ charVal 0x0D < 0x20 ∧
      charVal 0x0A < 0x20 := by decide
  unfold screenPut at h
  dsimp only at h
  split_ifs at h with h1 h2 h3 h4 h5
  · obtain rfl := Except.ok.inj h
    rw [hwrap, writtenCell, h1.1, if_neg (by omega)]
  · obtain rfl := Except.ok.inj h
    rw [hwrap, writtenCell, h2, if_neg (by omega)]
  · obtain rfl := Except.ok.inj h
    rw [hwrap, writtenCell, h3, if_neg (by omega)]
  · obtain rfl := Except.ok.inj h
    rw [hwrap, writtenCell, h4, if_neg (by omega)]
  · obtain rfl := Except.ok.inj h
    rw [hwrap, writtenCell, if_pos h5]
  · obtain rfl := Except.ok.inj h
    rw [hwrap, writtenCell, if_neg h5]

/-- The only way for `screen_put` not to return. -/
theorem screenPut_error {ch : UInt8} {s : Screen} {x : Stop} (h : screenPut ch s = .error x) :
    x = .wild .video := by
  unfold screenPut at h
  dsimp only at h
  split_ifs at h
  exact (Except.error.inj h).symm

/-- The last step of `screen_put`, in numbers. -/
theorem wrap_cursor (hy : s.cursorY.toNat < 2 ^ 16 - 1) :
    s.wrap.cursorX.toNat = (if 80 ≤ s.cursorX.toNat then 0 else s.cursorX.toNat) ∧
      s.wrap.cursorY.toNat = s.cursorY.toNat + (decide (80 ≤ s.cursorX.toNat)).toNat := by
  have hle : s.cursorX ≥ 80 ↔ 80 ≤ s.cursorX.toNat := by
    rw [ge_iff_le, UInt16.le_iff_toNat_le]
    rfl
  unfold Screen.wrap
  by_cases h : 80 ≤ s.cursorX.toNat
  · rw [if_pos (hle.mpr h), if_pos h, decide_eq_true h]
    refine ⟨rfl, ?_⟩
    rw [UInt16.toNat_add]
    exact Nat.mod_eq_of_lt (by simp; omega)
  · rw [if_neg (fun hc => h (hle.mp hc)), if_neg h, decide_eq_false h]
    exact ⟨rfl, rfl⟩

/-- The tab stop behind a column of the screen. -/
theorem toNat_tabStop (hx : s.cursorX.toNat < 80) :
    ((s.cursorX + 8) &&& ~~~7).toNat = (s.cursorX.toNat / 8 + 1) * 8 := by
  have hall : ∀ n < 80, ((UInt16.ofNat n + 8) &&& ~~~7).toNat = (n / 8 + 1) * 8 := by decide
  simpa using hall _ hx

/-- So far for a character that is no newline. -/
theorem wrap_column {t : Screen} (h10 : ch ≠ 0x0A) (hx : t.cursorX.toNat = column x ch)
    (hy : t.cursorY.toNat < 25) : t.wrap.cursorX.toNat = nextColumn x ch ∧
      t.wrap.cursorY.toNat = t.cursorY.toNat + (endsLine x ch).toNat := by
  have hw := wrap_cursor (s := t) (by omega)
  have hends : endsLine x ch = decide (80 ≤ column x ch) := by simp [endsLine, h10]
  rw [hw.1, hw.2, hx, nextColumn, hends]
  simp

/-- **One call** on a row that the kernel's memory is far from: the cursor moves as on a page. -/
theorem screenPut_cursor (hx : s.cursorX.toNat < 80) (hy : s.cursorY.toNat < 25) (ch : UInt8) :
    ∃ s', screenPut ch s = .ok s' ∧ s'.cursorX.toNat = nextColumn s.cursorX.toNat ch ∧
      s'.cursorY.toNat = s.cursorY.toNat + (endsLine s.cursorX.toNat ch).toNat := by
  have hzero : s.cursorX ≠ 0 ↔ s.cursorX.toNat ≠ 0 := by
    rw [ne_eq, ← UInt16.toNat_inj]
    rfl
  unfold screenPut
  dsimp only
  split_ifs with h1 h2 h3 h4 h5 h6
  · -- backspace: the line above is out of reach
    obtain ⟨rfl, hx0⟩ := h1
    rw [hzero] at hx0
    have hsub : (s.cursorX - 1).toNat = s.cursorX.toNat - 1 := by
      rw [UInt16.toNat_sub_of_le]
      · rfl
      · rw [UInt16.le_iff_toNat_le]
        simp
        omega
    exact ⟨_, rfl, wrap_column (by decide) hsub hy⟩
  · subst h2
    exact ⟨_, rfl, wrap_column (by decide) (toNat_tabStop hx) hy⟩
  · subst h3
    exact ⟨_, rfl, wrap_column (by decide) rfl hy⟩
  · -- a newline is the one that goes down by itself
    subst h4
    have hy1 : (s.cursorY + 1).toNat = s.cursorY.toNat + 1 := by
      rw [UInt16.toNat_add]
      exact Nat.mod_eq_of_lt (by simp; omega)
    have hw := wrap_cursor (s := { s with cursorX := 0, cursorY := s.cursorY + 1 })
      (by simp only [hy1]; omega)
    exact ⟨_, rfl, by rw [hw.1]; rfl, by rw [hw.2]; simp [hy1, endsLine]⟩
  · have hne : ch ≠ 0x08 := by
      rintro rfl
      exact absurd h5 (by decide)
    have hx1 : (s.cursorX + 1).toNat = s.cursorX.toNat + 1 := by
      rw [UInt16.toNat_add]
      exact Nat.mod_eq_of_lt (by simp; omega)
    have hcol : (s.cursorX + 1).toNat = column s.cursorX.toNat ch := by
      rw [hx1]
      simp [column, hne, h2, h3, h4, h5]
    exact ⟨_, rfl, wrap_column h4 hcol hy⟩
  · exact absurd (show s.cursorY.toNat * 80 + s.cursorX.toNat < NR_CELLS by
      have : NR_CELLS = 147456 := rfl
      omega) h6
  · -- what is not printed, and a backspace at the start of the line
    have hcol : s.cursorX.toNat = column s.cursorX.toNat ch := by
      by_cases h8 : ch = 0x08
      · have hx0 : s.cursorX.toNat = 0 := by
          by_contra hc
          exact h1 ⟨h8, hzero.mpr hc⟩
        simp [column, h8, hx0]
      · simp [column, h8, h2, h3, h4, h5]
    exact ⟨_, rfl, wrap_column h4 hcol hy⟩

/-- **A whole text**, while its line breaks fit on the screen. -/
theorem screenPuts_cursor (s : Screen) (text : List UInt8) (hx : s.cursorX.toNat < 80)
    (hy : s.cursorY.toNat + lineBreaks s.cursorX.toNat text < 25) :
    ∃ s', screenPuts s text = .ok s' ∧ s'.cursorX.toNat = textColumn s.cursorX.toNat text ∧
      s'.cursorY.toNat = s.cursorY.toNat + lineBreaks s.cursorX.toNat text := by
  induction text generalizing s with
  | nil => exact ⟨s, rfl, rfl, rfl⟩
  | cons ch text ih =>
    rw [lineBreaks] at hy
    obtain ⟨s1, h1, hx1, hy1⟩ := screenPut_cursor hx (by omega) ch
    obtain ⟨s2, h2, hx2, hy2⟩ := ih s1 (by rw [hx1]; exact nextColumn_lt _ ch)
      (by rw [hx1, hy1]; omega)
    refine ⟨s2, by rw [screenPuts, h1, ok_bind, h2], ?_, ?_⟩
    · rw [hx2, hx1]
      rfl
    · rw [hy2, hy1, hx1, lineBreaks, Nat.add_assoc]

/-! ### Staying on the screen -/

/-- Every call of `screen_put` for the characters of a text returns, stores to cells of the 80×25
screen only and leaves the cursor on it. -/
def StaysOnScreen (s : Screen) (text : List UInt8) : Prop :=
  ∀ before ch after, text = before ++ ch :: after → ∃ s1 s2, screenPuts s before = .ok s1 ∧
    screenPut ch s1 = .ok s2 ∧ (∀ i, writtenCell ch s1 = some i → i < 80 * 25) ∧ OnScreen s2

/-- A text with few line breaks stays on the screen. -/
theorem staysOnScreen_of_lt (h : lineBreaks 0 text < 25) : StaysOnScreen (screenClear s) text := by
  intro before ch after htext
  have hb : lineBreaks 0 text = lineBreaks 0 before +
      ((endsLine (textColumn 0 before) ch).toNat +
        lineBreaks (nextColumn (textColumn 0 before) ch) after) := by
    rw [htext, lineBreaks_append, lineBreaks]
  have hcol : textColumn 0 before < 80 := textColumn_lt (by decide) _
  obtain ⟨s1, h1, hx1, hy1⟩ := screenPuts_cursor (screenClear s) before
    (by simp [screenClear]) (by simp [screenClear]; omega)
  have hx1' : s1.cursorX.toNat = textColumn 0 before := hx1
  have hy1' : s1.cursorY.toNat = lineBreaks 0 before := by
    rw [hy1]
    simp [screenClear]
  obtain ⟨s2, h2, hx2, hy2⟩ := screenPut_cursor (s := s1) (by omega) (by omega) ch
  refine ⟨s1, s2, h1, h2, ?_, ?_, ?_⟩
  · intro i hi
    unfold writtenCell at hi
    split_ifs at hi
    have := Option.some.inj hi
    omega
  · rw [hx2, hx1']
    exact nextColumn_lt _ ch
  · rw [hy2, hx1', hy1']
    omega

/-- The last line break that fits on the screen is the twenty-fourth: the induction is on the text
from its end, since only the call for the last character is new. -/
theorem lineBreaks_lt_of_stays (h : StaysOnScreen (screenClear s) text) :
    lineBreaks 0 text < 25 := by
  induction text using List.reverseRecOn with
  | nil => simp [lineBreaks]
  | append_singleton text ch ih =>
    have hprefix : StaysOnScreen (screenClear s) text := by
      intro before c after ht
      exact h before c (after ++ [ch]) (by rw [ht]; simp)
    obtain ⟨s1, s2, h1, h2, -, hon⟩ := h text ch [] rfl
    obtain ⟨t1, ht1, hx1, hy1⟩ := screenPuts_cursor (screenClear s) text
      (by simp [screenClear]) (by simpa [screenClear] using ih hprefix)
    obtain rfl := Except.ok.inj (h1.symm.trans ht1)
    have hx1' : s1.cursorX.toNat = textColumn 0 text := hx1
    have hy1' : s1.cursorY.toNat = lineBreaks 0 text := by
      rw [hy1]
      simp [screenClear]
    have hcol : textColumn 0 text < 80 := textColumn_lt (by decide) _
    obtain ⟨t2, ht2, -, hy2⟩ := screenPut_cursor (s := s1) (by omega)
      (by have := ih hprefix; omega) ch
    obtain rfl := Except.ok.inj (h2.symm.trans ht2)
    have hrow := hon.row
    rw [hy2, hx1', hy1'] at hrow
    rw [lineBreaks_append]
    simpa [lineBreaks] using hrow

/-- **The console stays on the screen** exactly as long as the text has fewer line breaks than the
screen has rows. -/
theorem staysOnScreen_iff (s : Screen) (text : List UInt8) :
    StaysOnScreen (screenClear s) text ↔ lineBreaks 0 text < 25 :=
  ⟨lineBreaks_lt_of_stays, staysOnScreen_of_lt⟩

/-- Twenty-five newlines: the cursor is behind the last row. -/
theorem newlines_leave_screen :
    ¬∀ (s : Screen) (text : List UInt8), StaysOnScreen (screenClear s) text := by
  intro h
  have hlt := lineBreaks_lt_of_stays (h ⟨fun _ => 0, 0, 0⟩ (List.replicate 25 0x0A))
  exact absurd hlt (by decide)

end OsLab
