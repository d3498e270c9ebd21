import OsLab.User.Stdio
import OsLab.Lib.Numerals

/-!
# What a format prints

A format is a sequence of `Item`s: ordinary characters, and directives with the spaces between their
`%` and their letter. `spell` writes the items down and `render` says what they print, without a
word about pointers, loops or buffers.

* `exists_items` and `inDirective_spell`: a format that does not end inside a directive
  (`inDirective`) is spelled by a sequence of items, and only such formats are.
* `printFormat_spell`: the loop of a printer sends the rendering to its device, character after
  character, and stops on the NUL.
* `printf_spell`: `printf` hands it to `NR_write` in one piece, if it fits into `outbuf`.
* `printQ_spell`: `printQ`, as the system calls use it.
* `printers_render`: **`printf`, `printk` and `printQ` print the rendering.**
-/

namespace OsLab

open OsLab.Lib

/-! ### Formats and what they print -/

/-- A piece of a format: a character that is printed as it is, or a directive with the number of
spaces in front of its letter. -/
inductive Item
  | char (c : UInt8) (hc : c ≠ 0 ∧ c ≠ 37)
  | directive (spaces : ℕ) (c : UInt8) (hc : c ≠ 0 ∧ c ≠ 32)

/-- How an item is written. -/
def Item.spell : Item → List UInt8
  | .char c _ => [c]
  | .directive spaces c _ => 37 :: (List.replicate spaces 32 ++ [c])

/-- The format that the items make up. -/
def spell (items : List Item) : List UInt8 := items.flatMap Item.spell

/-- The decimal numeral of an integer. -/
def decimalText (z : ℤ) : List UInt8 :=
  if z < 0 then 45 :: numeral 10 z.natAbs else numeral 10 z.natAbs

/-- What a directive prints for its argument. -/
def directiveText (c : UInt8) (arg : Arg) : List UInt8 :=
  if c = 99 then [arg.word.toUInt8]
  else if c = 100 then decimalText (intOf arg.word)
  else if c = 88 ∨ c = 120 then numeral 16 arg.word.toNat
  else if c = 115 then arg.str
  else if c = 37 then [37]
  else []

/-- The number of argument words that a directive takes. -/
def directiveArgs (c : UInt8) : ℕ :=
  if c = 99 ∨ c = 100 ∨ c = 88 ∨ c = 120 ∨ c = 115 then 1 else 0

/-- What the items print, the next argument being number `k`. -/
def render (args : ℕ → Arg) : ℕ → List Item → List UInt8
  | _, [] => []
  | k, .char c _ :: items => c :: render args k items
  | k, .directive _ c _ :: items =>
    directiveText c (args k) ++ render args (k + directiveArgs c) items

/-- The number of argument words that the items take. -/
def argsUsed : List Item → ℕ
  | [] => 0
  | .char _ _ :: items => argsUsed items
  | .directive _ c _ :: items => directiveArgs c + argsUsed items

/-- The format ends inside a directive: in a `%` that is not the letter of a directive itself, or in
such a `%` and spaces. -/
def inDirective : Bool → List UInt8 → Bool
  | b, [] => b
  | false, c :: format => inDirective (c = 37) format
  | true, c :: format => inDirective (c = 32) format

variable {format after : List UInt8} {args : ℕ → Arg}

/-- No item, no format. -/
@[simp] theorem spell_nil : spell [] = [] := rfl

/-- A format begins with its first item. -/
@[simp] theorem spell_cons (i : Item) (items : List Item) :
    spell (i :: items) = i.spell ++ spell items := rfl

/-- **Every format that does not end inside a directive is made of items.** The induction is on the
format; in the second part a `%` and `n` spaces have been read. -/
theorem exists_items_from (h0 : (0 : UInt8) ∉ format) :
    (inDirective false format = false → ∃ items, spell items = format) ∧
      ∀ n, inDirective true format = false →
        ∃ items, spell items = 37 :: (List.replicate n 32 ++ format) := by
  induction format with
  | nil => exact ⟨fun _ => ⟨[], rfl⟩, fun n h => by simp [inDirective] at h⟩
  | cons c format ih =>
    have hc : c ≠ 0 := fun he => h0 (by simp [he])
    obtain ⟨ihf, iht⟩ := ih fun hm => h0 (List.mem_cons_of_mem _ hm)
    constructor
    · intro h
      by_cases h37 : c = 37
      · obtain ⟨items, hi⟩ := iht 0 (by simpa [inDirective, h37] using h)
        exact ⟨items, by rw [hi, h37]; rfl⟩
      · obtain ⟨items, hi⟩ := ihf (by simpa [inDirective, h37] using h)
        exact ⟨.char c ⟨hc, h37⟩ :: items, by simp [Item.spell, hi]⟩
    · intro n h
      by_cases h32 : c = 32
      · obtain ⟨items, hi⟩ := iht (n + 1) (by simpa [inDirective, h32] using h)
        refine ⟨items, ?_⟩
        rw [hi, h32, List.replicate_succ']
        simp
      · obtain ⟨items, hi⟩ := ihf (by simpa [inDirective, h32] using h)
        exact ⟨.directive n c ⟨hc, h32⟩ :: items, by simp [Item.spell, hi]⟩

/-- A format that does not end inside a directive is a sequence of items. -/
theorem exists_items (h0 : (0 : UInt8) ∉ format) (h : inDirective false format = false) :
    ∃ items, spell items = format :=
  (exists_items_from h0).1 h

/-- The items of a format do not leave a directive open. -/
theorem inDirective_spell (items : List Item) : inDirective false (spell items) = false := by
  have hspaces : ∀ n c xs, c ≠ 32 →
      inDirective true (List.replicate n 32 ++ c :: xs) = inDirective false xs := by
    intro n c xs hc
    induction n with
    | zero => simp [inDirective, hc]
    | succ n ih => simpa [List.replicate_succ, inDirective] using ih
  induction items with
  | nil => rfl
  | cons i items ih =>
    cases i with
    | char c hc => simpa [Item.spell, inDirective, hc.2] using ih
    | directive n c hc => simpa [Item.spell, inDirective, hspaces _ _ _ hc.2] using ih

/-! ### The printers of arguments -/

section Printers

variable {ε σ : Type} {put : UInt8 → σ → Except ε σ} {s : σ} {past : ε}

/-- A text of two parts. -/
theorem printString_append (a b : List UInt8) (s : σ) :
    printString put (a ++ b) s = printString put a s >>= printString put b := by
  induction a generalizing s with
  | nil => rfl
  | cons c a ih =>
    simp only [List.cons_append, printString]
    cases put c s with
    | error e => rfl
    | ok t => exact ih t

/-- A text of one character. -/
@[simp] theorem printString_singleton (c : UInt8) (s : σ) : printString put [c] s = put c s := by
  simp only [printString]
  cases put c s <;> rfl

/-- A printer fails only where its device does. -/
theorem printString_error {P : ε → Prop} (hput : ∀ c s e, put c s = .error e → P e)
    {text : List UInt8} {e : ε} (h : printString put text s = .error e) : P e := by
  induction text generalizing s with
  | nil => cases h
  | cons c text ih =>
    rcases bind_eq_error.mp h with h | ⟨t, -, h⟩
    · exact hput c s e h
    · exact ih h

/-- The decimal digits. -/
theorem decDigit_eq {d : ℕ} (h : d < 10) : UInt8.ofNat (48 + d) = digitChar d := by
  rw [digitChar, if_pos h]

/-- The hexadecimal digits, as the loops compute them. -/
theorem hexDigit_eq {d : ℕ} (h : d < 16) :
    (if d < 10 then UInt8.ofNat (48 + d) else UInt8.ofNat (97 + d - 10)) = digitChar d := by
  unfold digitChar
  split_ifs with hd
  · rfl
  · congr 1
    omega

/-- **`print_dec`** on an integer that is not negative. -/
theorem printDigits_eq (n : ℕ) (s : σ) :
    printDigits put n s = printString put (numeral 10 n) s := by
  induction n using Nat.strong_induction_on generalizing s with
  | _ n ih =>
    rw [printDigits, decDigit_eq (Nat.mod_lt _ (by decide))]
    split_ifs with h
    · rw [numeral_of_le (by decide) (by omega), printString_append, ih _ (by omega)]
      congr 1
      funext t
      exact (printString_singleton _ t).symm
    · have hn : n < 10 := by omega
      rw [numeral_of_lt hn, printString_singleton, Nat.mod_eq_of_lt hn]

/-- **`print_hex`**. -/
theorem printHexDigits_eq (n : ℕ) (s : σ) :
    printHexDigits put n s = printString put (numeral 16 n) s := by
  induction n using Nat.strong_induction_on generalizing s with
  | _ n ih =>
    rw [printHexDigits, hexDigit_eq (Nat.mod_lt _ (by decide))]
    split_ifs with h
    · rw [numeral_of_le (by decide) (by omega), printString_append, ih _ (by omega)]
      congr 1
      funext t
      exact (printString_singleton _ t).symm
    · have hn : n < 16 := by omega
      rw [numeral_of_lt hn, printString_singleton, Nat.mod_eq_of_lt hn]

/-- The text that stands for the most negative integer is its numeral. -/
theorem decimalText_min :
    decimalText (-2 ^ 31) = [45, 50, 49, 52, 55, 52, 56, 51, 54, 52, 56] := by
  have h : (-2 ^ 31 : ℤ).natAbs = 2147483648 := rfl
  rw [decimalText, if_pos (by decide), h]
  simp [numeral, digitChar]

/-- The numeral of a negative number. -/
theorem decimalText_of_neg {z : ℤ} (h : z < 0) : decimalText z = 45 :: numeral 10 (-z).toNat := by
  have habs : (-z).toNat = z.natAbs := by omega
  rw [decimalText, if_pos h, habs]

/-- The numeral of a number that is not negative. -/
theorem decimalText_of_nonneg {z : ℤ} (h : ¬z < 0) : decimalText z = numeral 10 z.toNat := by
  have habs : z.toNat = z.natAbs := by omega
  rw [decimalText, if_neg h, habs]

/-- The sign, and the digits behind it. -/
theorem printSigned_eq (n : ℕ) (s : σ) :
    (put 45 s >>= fun s => printDigits put n s) = printString put (45 :: numeral 10 n) s := by
  cases h : put 45 s with
  | error e => rw [printString, h]; rfl
  | ok t => rw [printString, h, ok_bind, ok_bind, printDigits_eq]

/-- **`print_dec`** prints the numeral of the word read as an integer. -/
theorem printDec_eq (arg : UInt32) (s : σ) :
    printDec put arg s = printString put (decimalText (intOf arg)) s := by
  by_cases h1 : intOf arg = -2 ^ 31
  · rw [printDec, if_pos h1, h1, decimalText_min]
  by_cases h2 : intOf arg < 0
  · rw [printDec, if_neg h1, if_pos h2, printSigned_eq, decimalText_of_neg h2]
  · rw [printDec, if_neg h1, if_neg h2, printDigits_eq, decimalText_of_nonneg h2]

/-- `printHex` prints a hexadecimal numeral. -/
theorem printHex_eq (arg : UInt32) (s : σ) :
    printHex put arg s = printString put (numeral 16 arg.toNat) s :=
  printHexDigits_eq _ s

/-- **A directive** prints its text and takes its arguments. -/
theorem printDirective_eq (c : UInt8) (k : ℕ) (s : σ) :
    printDirective put args c (k, s) =
      printString put (directiveText c (args k)) s >>= fun t => .ok (k + directiveArgs c, t) := by
  unfold printDirective directiveText directiveArgs
  dsimp only
  by_cases h99 : c = 99
  · simp [h99]
  by_cases h100 : c = 100
  · simp [h100, printDec_eq]
  by_cases hx : c = 88 ∨ c = 120
  · rcases hx with rfl | rfl <;> simp [printHex_eq]
  obtain ⟨h88, h120⟩ := not_or.mp hx
  by_cases h115 : c = 115
  · simp [h115]
  by_cases h37 : c = 37
  · simp [h37]
  · simp [h99, h100, h88, h120, h115, h37, printString]

/-! ### The loop -/

/-- Inside a directive the loop skips the spaces. -/
theorem formatLoop_spaces {ordinary directive : UInt8 → σ → Except ε σ} (n : ℕ) {c : UInt8}
    (hc : c ≠ 32) (mem : List UInt8) (s : σ) :
    formatLoop past ordinary directive true (List.replicate n 32 ++ c :: mem) s =
      directive c s >>= fun t => formatLoop past ordinary directive false mem t := by
  induction n with
  | zero => simp [formatLoop, hc]
  | succ n ih => simpa [List.replicate_succ, formatLoop] using ih

/-- **The loop of a printer on the items of a format**: the induction is on the items, with the next
argument and the state of the device generalised. -/
theorem formatLoop_spell (items : List Item) (k : ℕ) (s : σ) :
    formatLoop past (fun c s => do
      let t ← put c s.2
      .ok (s.1, t)) (printDirective put args) false (spell items ++ 0 :: after) (k, s) =
        printString put (render args k items) s >>= fun t =>
          .ok (0 :: after, k + argsUsed items, t) := by
  induction items generalizing k s with
  | nil => simp [formatLoop, render, printString, argsUsed]
  | cons i items ih =>
    cases i with
    | char c hc =>
      simp only [spell_cons, Item.spell, List.cons_append, formatLoop,
        if_neg hc.1, if_neg hc.2, render, printString, argsUsed]
      cases put c s with
      | error e => rfl
      | ok t => exact ih k t
    | directive n c hc =>
      have hmem : spell (.directive n c hc :: items) ++ 0 :: after =
          37 :: (List.replicate n 32 ++ c :: (spell items ++ 0 :: after)) := by
        simp [Item.spell]
      rw [hmem, formatLoop, if_neg (by decide), if_pos rfl, formatLoop_spaces n hc.2,
        printDirective_eq, render, printString_append]
      cases printString put (directiveText c (args k)) s with
      | error e => rfl
      | ok t =>
        simp only [ok_bind, argsUsed]
        rw [ih, Nat.add_assoc]

/-- **The printer** of formats prints what the items say, and stops at the NUL. -/
theorem printFormat_spell (items : List Item) (s : σ) :
    printFormat put past args (spell items ++ 0 :: after) s =
      printString put (render args 0 items) s >>= fun t =>
        .ok (0 :: after, argsUsed items, t) := by
  rw [printFormat, formatLoop_spell]
  simp

end Printers

/-! ### The three devices -/

/-- `putChar` on the serial line appends. -/
theorem printString_putChar (text out : List UInt8) :
    printString putChar text out = .ok (out ++ text) := by
  induction text generalizing out with
  | nil => simp [printString]
  | cons c text ih => simp [printString, putChar, ih]

/-- `screen_put` on the screen. -/
theorem printString_screenPut (text : List UInt8) (s : Screen) :
    printString screenPut text s = screenPuts s text := by
  induction text generalizing s with
  | nil => rfl
  | cons c text ih =>
    simp only [printString, screenPuts]
    cases screenPut c s with
    | error e => rfl
    | ok t => exact ih t

/-- A text of two parts, on the screen. -/
theorem screenPuts_append (s : Screen) (a b : List UInt8) :
    screenPuts s (a ++ b) = screenPuts s a >>= fun s => screenPuts s b := by
  simp only [← printString_screenPut, printString_append]

/-- A character more in `outbuf`. -/
theorem outText_printCh {io io' : UserIO} {c : UInt8} (h : printCh c io = .ok io') :
    io'.outText = io.outText ++ [c] := by
  unfold printCh at h
  split_ifs at h
  obtain rfl := Except.ok.inj h
  have hbelow : ∀ i ∈ List.range io.outlen,
      Function.update io.outbuf io.outlen c i = io.outbuf i := by
    intro i hi
    have := List.mem_range.mp hi
    exact Function.update_of_ne (by omega) _ _
  simp only [ UserIO.outText, List.range_succ, List.map_append, List.map_cons, List.map_nil,
    Function.update_self]
  rw [List.map_congr_left hbelow]

/-- **`outbuf`** takes a text that fits behind what is in it, and nothing else changes. -/
theorem printString_printCh (text : List UInt8) (io : UserIO)
    (h : io.outlen + text.length ≤ max_size) :
    ∃ io', printString printCh text io = .ok io' ∧ io'.outText = io.outText ++ text ∧
      io' = { io with outbuf := io'.outbuf, outlen := io.outlen + text.length } := by
  induction text generalizing io with
  | nil => exact ⟨io, rfl, by simp, rfl⟩
  | cons c text ih =>
    rw [List.length_cons] at h
    have hput : printCh c io = .ok { io with
        outbuf := Function.update io.outbuf io.outlen c, outlen := io.outlen + 1 } :=
      if_pos (by omega)
    obtain ⟨io', h', htext, hrest⟩ := ih { io with
        outbuf := Function.update io.outbuf io.outlen c, outlen := io.outlen + 1 }
      (by simp only; omega)
    refine ⟨io', by rw [printString, hput, ok_bind, h'], ?_, ?_⟩
    · rw [htext, outText_printCh hput, List.append_assoc, List.singleton_append]
    · rw [hrest, List.length_cons, Nat.add_assoc, Nat.add_comm 1]

/-- **`printf`**, while the rendering fits into `outbuf`. -/
theorem printf_spell {items : List Item} (after : List UInt8) (io : UserIO)
    (hlen : (render args 0 items).length ≤ max_size) :
    ∃ io', printfLoop args (spell items ++ 0 :: after) io = .ok (0 :: after, argsUsed items, io') ∧
      io'.outText = render args 0 items ∧
      printf args (spell items ++ 0 :: after) io =
        .ok { io' with written := io.written ++ render args 0 items } := by
  obtain ⟨io', hrun, htext, hrest⟩ :=
    printString_printCh _ { io with outlen := 0 } (by simpa using hlen)
  have hloop : printfLoop args (spell items ++ 0 :: after) io =
      .ok (0 :: after, argsUsed items, io') := by
    rw [printfLoop, printFormat_spell, hrun, ok_bind]
  have hwritten : io'.written = io.written := by rw [hrest]
  refine ⟨io', hloop, by simpa [ UserIO.outText] using htext, ?_⟩
  rw [printf, hloop, ok_bind, hwritten, htext]
  simp [ UserIO.outText]

/-! ### `printQ` as `ls_aux` and `cat_aux` call it -/

/-- `decDigits` is the decimal numeral. -/
theorem decDigits_eq (n : ℕ) : decDigits n = numeral 10 n := by
  induction n using Nat.strong_induction_on with
  | _ n ih =>
    rw [decDigits, decDigit_eq (Nat.mod_lt _ (by decide))]
    split_ifs with h
    · rw [numeral_of_le (by decide) (by omega), ih _ (by omega)]
    · have hn : n < 10 := by omega
      rw [numeral_of_lt hn, Nat.mod_eq_of_lt hn]

/-- `hexDigits` is the hexadecimal numeral. -/
theorem hexDigits_eq (n : ℕ) : hexDigits n = numeral 16 n := by
  induction n using Nat.strong_induction_on with
  | _ n ih =>
    rw [hexDigits, hexDigit_eq (Nat.mod_lt _ (by decide))]
    split_ifs with h
    · rw [numeral_of_le (by decide) (by omega), ih _ (by omega)]
    · have hn : n < 16 := by omega
      rw [numeral_of_lt hn, Nat.mod_eq_of_lt hn]

/-- `printQ` prints a number as the other printers do. -/
theorem printDecQ_eq (arg : UInt32) : printDecQ arg = decimalText (intOf arg) := by
  by_cases h1 : intOf arg = -2 ^ 31
  · rw [printDecQ, if_pos h1, h1, decimalText_min]
  by_cases h2 : intOf arg < 0
  · rw [printDecQ, if_neg h1, if_pos h2, decDigits_eq, decimalText_of_neg h2]
  · rw [printDecQ, if_neg h1, if_neg h2, decDigits_eq, decimalText_of_nonneg h2]

/-- It prints the argument of a directive as they do. -/
theorem directiveQ_eq (c : UInt8) (arg : Arg) :
    directiveQ c arg = (directiveText c arg, directiveArgs c) := by
  unfold directiveQ directiveText directiveArgs
  rw [printDecQ_eq, hexDigits_eq]
  split_ifs <;> first | rfl | tauto

/-- Inside a directive `printQ` skips the spaces. -/
theorem formatQ_spaces (n k : ℕ) {c : UInt8} (hc : c ≠ 32) (rest : List UInt8) :
    formatQ args true k (List.replicate n 32 ++ c :: rest) =
      formatQ args false (k + directiveArgs c) rest >>= fun out =>
        .ok (directiveText c (args k) ++ out) := by
  induction n with
  | zero => simp [formatQ, hc, directiveQ_eq]
  | succ n ih => simpa [List.replicate_succ, formatQ] using ih

/-- `printQ` prints a format as the other printers do. -/
theorem formatQ_spell (items : List Item) (k : ℕ) :
    formatQ args false k (spell items) = .ok (render args k items) := by
  induction items generalizing k with
  | nil => rfl
  | cons i items ih =>
    cases i with
    | char c hc =>
      simp only [spell_cons, Item.spell, List.singleton_append, formatQ, if_neg hc.2, ih, ok_bind,
        render]
    | directive n c hc =>
      have hformat : spell (.directive n c hc :: items) =
          37 :: (List.replicate n 32 ++ c :: spell items) := by
        simp [Item.spell]
      rw [hformat, formatQ, if_pos rfl, formatQ_spaces n k hc.2, ih]
      rfl

/-- **`printQ`** puts the rendering on the screen. -/
theorem printQ_spell (items : List Item) (s : Screen) :
    printQ (spell items) args s = screenPuts s (render args 0 items) := by
  rw [printQ, formatQ_spell]
  rfl

/-- The format with which `ls_aux` prints a name. -/
theorem printQ_name (name : List UInt8) (s : Screen) :
    printQ [37, 115, 9] (fun _ => ⟨0, name⟩) s = screenPuts s (name ++ [9]) :=
  printQ_spell [.directive 0 115 (by decide), .char 9 (by decide)] s

/-- The format with which it ends its line. -/
theorem printQ_newline (s : Screen) : printQ [10] (fun _ => ⟨0, []⟩) s = screenPuts s [10] :=
  printQ_spell [.char 10 (by decide)] s

/-! ### All printers -/

/-- **Formatted output renders the format.** A format that does not end inside a directive is made
of items, and `outbuf[0..outlen)`, the serial port and the screen get what these print; a loop over
the format ends on its NUL, whatever lies behind. -/
theorem printers_render (h0 : (0 : UInt8) ∉ format) (hd : inDirective false format = false) :
    ∃ items, spell items = format ∧ ∀ args after,
      (∀ io, (render args 0 items).length ≤ max_size → ∃ io',
        printfLoop args (format ++ 0 :: after) io = .ok (0 :: after, argsUsed items, io') ∧
        io'.outText = render args 0 items ∧
        printf args (format ++ 0 :: after) io =
          .ok { io' with written := io.written ++ render args 0 items }) ∧
      (∀ serial, printk args (format ++ 0 :: after) serial =
        .ok (0 :: after, argsUsed items, serial ++ render args 0 items)) ∧
      (∀ s, printQScan args (format ++ 0 :: after) s = screenPuts s (render args 0 items) >>=
        fun s' => .ok (0 :: after, argsUsed items, s')) ∧
      ∀ s, printQ format args s = screenPuts s (render args 0 items) := by
  obtain ⟨items, rfl⟩ := exists_items h0 hd
  refine ⟨items, rfl, fun args after => ⟨fun io hlen => printf_spell after io hlen, fun serial => ?_,
    fun s => ?_, ?_⟩⟩
  · rw [printk, printFormat_spell, printString_putChar, ok_bind]
  · rw [printQScan, printFormat_spell, printString_screenPut]
  · exact fun s => printQ_spell items s

/-- A directive with a space in it. -/
theorem printers_render_dec : ∃ items, spell items = [37, 32, 100, 10] ∧
    ∀ serial, printk (fun _ => ⟨7, []⟩) [37, 32, 100, 10, 0] serial =
      .ok ([0], argsUsed items, serial ++ render (fun _ => ⟨7, []⟩) 0 items) := by
  obtain ⟨items, hspell, h⟩ :=
    printers_render (show (0 : UInt8) ∉ [37, 32, 100, 10] by decide) (by decide)
  exact ⟨items, hspell, (h _ []).2.1⟩

end OsLab
