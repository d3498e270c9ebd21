import OsLab.User.Rendering
import OsLab.Devices.Console

/-!
# Where the loop over a format ends

The loops of `printf`, `scanf`, `printk` and `printQ` look for the terminating NUL at one place
only, behind a whole item. Inside a directive the NUL is a letter like any other: it is stepped
over, and the loop reads what lies behind the format.

* `formatLoop_stops`: a format that does not end inside a directive is read up to its NUL, unless
  the device stops the run before: `outbuf` is full, the cursor has left the video memory, or a
  `scanf` directive waits for the keyboard.
* `formatLoop_past`: on any other format, a loop that returns has gone past the NUL.
* `formatStops_iff`: **the four loops stop at the terminator** if and only if the format does not
  end inside a directive.
* `percent_runs_past`: the format `"%"`.
-/

namespace OsLab

open OsLab.Lib

variable {ε σ : Type} {past : ε} {ordinary directive : UInt8 → σ → Except ε σ} {b : Bool} {s : σ}
variable {format after : List UInt8} {P : ε → Prop}

/-- The loop has returned with its pointer on the NUL in front of `after`, so the characters up to
there have been read and no others; or the device has stopped the run. -/
def StopsAtNul (refused : ε → Prop) (after : List UInt8) : Except ε (List UInt8 × σ) → Prop
  | .ok r => r.1 = 0 :: after
  | .error e => refused e

/-! ### The loop for any device -/

/-- **Up to the NUL**: the induction is on the format, inside and outside a directive. -/
theorem formatLoop_stops (h0 : (0 : UInt8) ∉ format) (hd : inDirective b format = false)
    (hord : ∀ c s e, ordinary c s = .error e → P e)
    (hdir : ∀ c s e, directive c s = .error e → P e) :
    StopsAtNul P after (formatLoop past ordinary directive b (format ++ 0 :: after) s) := by
  induction format generalizing b s with
  | nil =>
    obtain rfl : b = false := hd
    simp [formatLoop, StopsAtNul]
  | cons c format ih =>
    have hc : c ≠ 0 := fun he => h0 (by simp [he])
    have ih := fun {b s} => ih (b := b) (s := s) fun hm => h0 (List.mem_cons_of_mem _ hm)
    cases b with
    | false =>
      rw [List.cons_append, formatLoop, if_neg hc]
      by_cases h37 : c = 37
      · rw [if_pos h37]
        exact ih (by simpa [inDirective, h37] using hd)
      · rw [if_neg h37]
        cases hrun : ordinary c s with
        | error e => exact hord c s e hrun
        | ok t => exact ih (by simpa [inDirective, h37] using hd)
    | true =>
      rw [List.cons_append, formatLoop]
      by_cases h32 : c = 32
      · rw [if_pos h32]
        exact ih (by simpa [inDirective, h32] using hd)
      · rw [if_neg h32]
        cases hrun : directive c s with
        | error e => exact hdir c s e hrun
        | ok t => exact ih (by simpa [inDirective, h32] using hd)

/-- A loop only moves its pointer forwards. -/
theorem formatLoop_length {mem : List UInt8} {r : List UInt8 × σ}
    (h : formatLoop past ordinary directive b mem s = .ok r) : r.1.length ≤ mem.length := by
  induction mem generalizing b s with
  | nil => cases b <;> cases h
  | cons c mem ih =>
    have hstep : ∀ {b s}, formatLoop past ordinary directive b mem s = .ok r →
        r.1.length ≤ (c :: mem).length := fun h => (ih h).trans (Nat.le_succ _)
    cases b with
    | false =>
      rw [formatLoop] at h
      split_ifs at h
      · exact (Except.ok.inj h) ▸ le_rfl
      · exact hstep h
      · obtain ⟨t, -, h⟩ := bind_eq_ok.mp h
        exact hstep h
    | true =>
      rw [formatLoop] at h
      split_ifs at h
      · exact hstep h
      · obtain ⟨t, -, h⟩ := bind_eq_ok.mp h
        exact hstep h

/-- **Past the NUL**: at the end of a directive that is still open the NUL is its letter. -/
theorem formatLoop_past {r : List UInt8 × σ} (h0 : (0 : UInt8) ∉ format)
    (hd : inDirective b format = true)
    (h : formatLoop past ordinary directive b (format ++ 0 :: after) s = .ok r) :
    r.1.length ≤ after.length := by
  induction format generalizing b s with
  | nil =>
    obtain rfl : b = true := hd
    rw [List.nil_append, formatLoop, if_neg (by decide)] at h
    obtain ⟨t, -, h⟩ := bind_eq_ok.mp h
    exact formatLoop_length h
  | cons c format ih =>
    have hc : c ≠ 0 := fun he => h0 (by simp [he])
    have ih := fun {b s} => ih (b := b) (s := s) fun hm => h0 (List.mem_cons_of_mem _ hm)
    cases b with
    | false =>
      rw [List.cons_append, formatLoop, if_neg hc] at h
      by_cases h37 : c = 37
      · rw [if_pos h37] at h
        exact ih (by simpa [inDirective, h37] using hd) h
      · rw [if_neg h37] at h
        obtain ⟨t, -, h⟩ := bind_eq_ok.mp h
        exact ih (by simpa [inDirective, h37] using hd) h
    | true =>
      rw [List.cons_append, formatLoop] at h
      by_cases h32 : c = 32
      · rw [if_pos h32] at h
        exact ih (by simpa [inDirective, h32] using hd) h
      · rw [if_neg h32] at h
        obtain ⟨t, -, h⟩ := bind_eq_ok.mp h
        exact ih (by simpa [inDirective, h32] using hd) h

/-! ### Why the four loops stop early -/

/-- The only way for a character not to be printed: the buffer is full. -/
theorem printCh_error {c : UInt8} {io : UserIO} {e : UserStop} (h : printCh c io = .error e) :
    e = .outbuf := by
  unfold printCh at h
  split_ifs at h
  exact (Except.error.inj h).symm

/-- A printer fails only where its device does. -/
theorem printDirective_error {put : UInt8 → σ → Except ε σ} {args : ℕ → Arg} {c : UInt8}
    {t : ℕ × σ} {e : ε} (hput : ∀ c s e, put c s = .error e → P e)
    (h : printDirective put args c t = .error e) : P e := by
  rw [printDirective_eq] at h
  rcases bind_eq_error.mp h with h | ⟨u, -, h⟩
  · exact printString_error hput h
  · cases h

/-- A printer stops at the NUL of a format that does not end inside a directive. -/
theorem printFormat_stops {put : UInt8 → σ → Except ε σ} {args : ℕ → Arg}
    (h0 : (0 : UInt8) ∉ format) (hd : inDirective false format = false)
    (hput : ∀ c s e, put c s = .error e → P e) :
    StopsAtNul P after (printFormat put past args (format ++ 0 :: after) s) := by
  refine formatLoop_stops h0 hd (fun c t e h => ?_) fun c t e h => printDirective_error hput h
  rcases bind_eq_error.mp h with h | ⟨u, -, h⟩
  · exact hput c _ e h
  · cases h

/-- Blanks are skipped until the text ends. -/
theorem skipBlanks_error {input : List UInt8} {e : UserStop} (h : skipBlanks input = .error e) :
    e = .wait := by
  induction input with
  | nil => exact (Except.error.inj h).symm
  | cons c input ih =>
    rw [skipBlanks] at h
    split_ifs at h
    exact ih h

/-- A number is read until the text ends. -/
theorem scanNumLoop_error {digit : UInt8 → Bool} {base num : UInt32} {ch : UInt8}
    {input : List UInt8} {e : UserStop} (h : scanNumLoop digit base num ch input = .error e) :
    e = .wait := by
  induction input generalizing num ch with
  | nil =>
    rw [scanNumLoop] at h
    split_ifs at h
    exact (Except.error.inj h).symm
  | cons c input ih =>
    rw [scanNumLoop] at h
    split_ifs at h
    exact ih h

/-- A word is read until the text ends. -/
theorem scanStringLoop_error {ch : UInt8} {input : List UInt8} {e : UserStop}
    (h : scanStringLoop ch input = .error e) : e = .wait := by
  induction input generalizing ch with
  | nil =>
    rw [scanStringLoop] at h
    split_ifs at h
    exact (Except.error.inj h).symm
  | cons c input ih =>
    rw [scanStringLoop] at h
    split_ifs at h
    rcases bind_eq_error.mp h with h | ⟨r, -, h⟩
    · exact ih h
    · cases h

/-- A directive is read until the text ends. -/
theorem scanDirective_error {ptrs : ℕ → UInt32} {c : UInt8} {t : ScanState} {e : UserStop}
    (h : scanDirective ptrs c t = .error e) : e = .wait := by
  unfold scanDirective at h
  split_ifs at h
  · rcases bind_eq_error.mp h with h | ⟨r, -, h⟩
    · exact skipBlanks_error h
    · cases h
  · rcases bind_eq_error.mp h with h | ⟨r, -, h⟩
    · rcases bind_eq_error.mp h with h | ⟨r, -, h⟩
      · exact skipBlanks_error h
      · exact scanNumLoop_error h
    · cases h
  · rcases bind_eq_error.mp h with h | ⟨r, -, h⟩
    · rcases bind_eq_error.mp h with h | ⟨r, -, h⟩
      · exact skipBlanks_error h
      · exact scanNumLoop_error h
    · cases h
  · rcases bind_eq_error.mp h with h | ⟨r, -, h⟩
    · rcases bind_eq_error.mp h with h | ⟨r, -, h⟩
      · exact skipBlanks_error h
      · exact scanStringLoop_error h
    · cases h

/-- `scanf` prints an ordinary character through an `outbuf` that is empty. -/
theorem printf_char_ok (a : Arg) (io : UserIO) : ∃ io', printf (fun _ => a) [37, 99, 0] io = .ok io' := by
  simp [printf, printfLoop, printFormat, formatLoop, printDirective, printCh]

/-! ### The four loops -/

/-- `printf`, `scanf`, `printk` and `printQ` stop at the NUL of this format. -/
def FormatStops (format after : List UInt8) : Prop :=
  (∀ args io, StopsAtNul (· = .outbuf) after (printfLoop args (format ++ 0 :: after) io)) ∧
  (∀ ptrs io, StopsAtNul (· = .wait) after (scanf ptrs (format ++ 0 :: after) io)) ∧
  (∀ args serial, StopsAtNul (fun _ => False) after (printk args (format ++ 0 :: after) serial)) ∧
  ∀ args s, StopsAtNul (· = .wild .video) after (printQScan args (format ++ 0 :: after) s)

/-- All four loops stop at the NUL of a format that is a sequence of items. -/
theorem formatStops_of_items (h0 : (0 : UInt8) ∉ format) (hd : inDirective false format = false) :
    FormatStops format after := by
  refine ⟨fun args io => ?_, fun ptrs io => ?_, fun args serial => ?_, fun args s => ?_⟩
  · exact printFormat_stops h0 hd fun c io e h => printCh_error h
  · refine formatLoop_stops h0 hd (fun c t e h => ?_) fun c t e h => scanDirective_error h
    obtain ⟨io', hio⟩ := printf_char_ok ⟨wordOf (charVal c), []⟩ t.io
    rw [hio] at h
    cases h
  · exact printFormat_stops h0 hd fun c out e h => by cases h
  · exact printFormat_stops h0 hd fun c s e h => screenPut_error h

/-- The serial port takes everything, so `printk` shows where the loop goes. -/
theorem inDirective_of_stops (h0 : (0 : UInt8) ∉ format) (h : FormatStops format after) :
    inDirective false format = false := by
  by_contra hd
  have hk := h.2.2.1 (fun _ => ⟨0, []⟩) []
  cases hrun : printk (fun _ => ⟨0, []⟩) (format ++ 0 :: after) [] with
  | error e =>
    rw [hrun] at hk
    exact hk
  | ok r =>
    rw [hrun] at hk
    have hlen := formatLoop_past h0 (by simpa using hd) hrun
    rw [show r.1 = 0 :: after from hk, List.length_cons] at hlen
    omega

/-- **Format scanning stops at the terminator** if and only if the format does not end inside a
directive, that is in a `%`, or in a `%` and spaces, that begins one. -/
theorem formatStops_iff (h0 : (0 : UInt8) ∉ format) :
    FormatStops format after ↔ inDirective false format = false :=
  ⟨inDirective_of_stops h0, formatStops_of_items h0⟩

/-- A format that ends in two percent signs. -/
theorem formatStops_iff_percent : FormatStops [37, 37] [7] ↔ inDirective false [37, 37] = false :=
  formatStops_iff (by decide)

/-- The format `"%"`: all four loops read on behind it. -/
theorem percent_runs_past :
    ¬∀ format after : List UInt8, (0 : UInt8) ∉ format → FormatStops format after := fun h =>
  absurd (inDirective_of_stops (by decide) (h [37] [] (by decide))) (by decide)

end OsLab
