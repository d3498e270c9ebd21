import OsLab.User.Stdio
import Mathlib.Data.List.TakeWhile

/-!
# What `scanf` takes from the keyboard

Every conversion but `%c` reads on until it has seen a character that is not in its token, and that
character is gone: the next conversion begins behind it. For a blank this does no harm.

* `Conversion.own` and `Conversion.rest`: how a text ought to be divided, into the leading blanks and
  the token on the one hand and what lies behind on the other.
* `inputLeft_scanDirective`: what one conversion of `scanf` leaves. `unscanned_eq`: so the whole run is
  a fold over the conversions, also if it waits.
* `cut`: the same fold for a scanner that leaves what it ought to. The two go side by side as long as
  no token is followed by a character that would be lost.
* `scanf_loses_iff`: **scanning takes no more than blanks and tokens** if and only if the text ends
  behind the token of every `%d`, `%x` and `%s`; and it loses no more than a blank, so that the next
  conversion sees every other delimiter, if and only if a blank or nothing is behind the token of
  every `%d` and `%x`.
* `letter_is_lost`: the format `%d%c` on `12a`.
-/

namespace OsLab

open OsLab.Lib

variable {input : List UInt8} {ptrs : ℕ → UInt32} {io : UserIO}

/-! ### Conversions and their tokens -/

/-- The conversions of `scanf`. -/
inductive Conversion
  | dec
  | hex
  | string
  | char
  deriving DecidableEq, Repr

/-- The letter behind the `%`. -/
def Conversion.letter : Conversion → UInt8
  | dec => 100
  | hex => 120
  | string => 115
  | char => 99

/-- A format of conversions only. -/
def formatOf (cs : List Conversion) : List UInt8 := cs.flatMap fun c => [37, c.letter]

/-- `ch == '\n' || ch == ' '`. -/
def isBlank (ch : UInt8) : Bool := ch = 10 ∨ ch = 32

/-- The characters of a token that can be of any length. -/
def Conversion.inToken : Conversion → UInt8 → Bool
  | dec => isDec
  | hex => isHex
  | string => fun ch => !isBlank ch
  | char => fun _ => false

/-- The token at the start of a text without leading blanks. -/
def Conversion.token (c : Conversion) (text : List UInt8) : List UInt8 :=
  if c = .char then text.take 1 else text.takeWhile c.inToken

/-- What lies behind the token. -/
def Conversion.behind (c : Conversion) (text : List UInt8) : List UInt8 :=
  if c = .char then text.drop 1 else text.dropWhile c.inToken

/-- The characters that a conversion ought to take: the leading blanks and its token. -/
def Conversion.own (c : Conversion) (input : List UInt8) : List UInt8 :=
  input.takeWhile isBlank ++ c.token (input.dropWhile isBlank)

/-- The characters that a conversion ought to leave. -/
def Conversion.rest (c : Conversion) (input : List UInt8) : List UInt8 :=
  c.behind (input.dropWhile isBlank)

/-- The characters that the conversions ought to leave, one after another. -/
def cut (cs : List Conversion) (input : List UInt8) : List UInt8 :=
  cs.foldl (fun input c => c.rest input) input

/-- What a conversion takes and what it leaves is the whole input. -/
theorem Conversion.own_append_rest (c : Conversion) (input : List UInt8) :
    c.own input ++ c.rest input = input := by
  have htoken : c.token (input.dropWhile isBlank) ++ c.behind (input.dropWhile isBlank) =
      input.dropWhile isBlank := by
    unfold Conversion.token Conversion.behind
    split_ifs
    · exact List.take_append_drop _ _
    · exact List.takeWhile_append_dropWhile
  rw [Conversion.own, Conversion.rest, List.append_assoc, htoken, List.takeWhile_append_dropWhile]

/-- Only the text behind the leading blanks counts. -/
theorem Conversion.rest_congr {input' : List UInt8} (c : Conversion)
    (h : input.dropWhile isBlank = input'.dropWhile isBlank) : c.rest input = c.rest input' := by
  rw [Conversion.rest, Conversion.rest, h]

/-! ### What a conversion leaves -/

/-- The characters that are left when a scan returns; if it waits, none are. -/
def leftOf {α : Type} : Except UserStop (α × List UInt8) → List UInt8
  | .ok r => r.2
  | .error _ => []

/-- The same for a conversion of `scanf`. -/
def inputLeft : Except UserStop ScanState → List UInt8
  | .ok s => s.io.input
  | .error _ => []

/-- What a conversion does leave: behind a token that can be of any length, one character less. -/
def Conversion.left (c : Conversion) (input : List UInt8) : List UInt8 :=
  if c = .char then c.rest input else (c.rest input).tail

/-- `skipBlanks` drops the blanks and takes one character. -/
theorem skipBlanks_eq (input : List UInt8) : skipBlanks input =
    match input.dropWhile isBlank with
    | [] => .error .wait
    | ch :: text => .ok (ch, text) := by
  induction input with
  | nil => rfl
  | cons ch input ih =>
    rw [skipBlanks, List.dropWhile_cons, ih]
    by_cases hb : ch = 10 ∨ ch = 32 <;> simp [isBlank, hb]

/-- What a number leaves: it takes its digits and one character more. -/
theorem leftOf_scanNumLoop (digit : UInt8 → Bool) (base num : UInt32) (ch : UInt8)
    (input : List UInt8) :
    leftOf (scanNumLoop digit base num ch input) = ((ch :: input).dropWhile digit).tail := by
  induction input generalizing num ch with
  | nil =>
    rw [scanNumLoop, List.dropWhile_cons]
    cases digit ch <;> rfl
  | cons c input ih =>
    rw [scanNumLoop, List.dropWhile_cons]
    cases digit ch with
    | false => rfl
    | true => exact ih _ _

/-- What a word leaves: it takes its characters and one more. -/
theorem leftOf_scanStringLoop (ch : UInt8) (input : List UInt8) :
    leftOf (scanStringLoop ch input) = ((ch :: input).dropWhile fun ch => !isBlank ch).tail := by
  have hblank : (ch ≠ 10 ∧ ch ≠ 32) ↔ (!isBlank ch) = true := by simp [isBlank]
  induction input generalizing ch with
  | nil =>
    rw [scanStringLoop, List.dropWhile_cons]
    simp only [hblank]
    cases isBlank ch <;> rfl
  | cons c input ih =>
    rw [scanStringLoop, List.dropWhile_cons]
    simp only [hblank]
    cases hb : isBlank ch with
    | true => rfl
    | false =>
      rw [if_pos (by simp), if_pos (by simp), ← ih c (by simp [isBlank])]
      cases scanStringLoop c input <;> rfl

/-- Behind the leading blanks the second loop begins. -/
theorem leftOf_skipBlanks_bind {α : Type} (f : UInt8 → List UInt8 → Except UserStop (α × List UInt8))
    (p : UInt8 → Bool) (hf : ∀ ch text, leftOf (f ch text) = ((ch :: text).dropWhile p).tail)
    (input : List UInt8) : leftOf (skipBlanks input >>= fun r => f r.1 r.2) =
      ((input.dropWhile isBlank).dropWhile p).tail := by
  rw [skipBlanks_eq]
  cases input.dropWhile isBlank with
  | nil => rfl
  | cons ch text => exact hf ch text

/-- **A conversion of `scanf`**. -/
theorem inputLeft_scanDirective (c : Conversion) (s : ScanState) :
    inputLeft (scanDirective ptrs c.letter s) = c.left s.io.input := by
  have hstore : ∀ {α : Type} (r : Except UserStop (α × List UInt8)) (v : α → Scanned),
      inputLeft (r >>= fun r => .ok (s.store ptrs (v r.1) r.2)) = leftOf r := by
    intro α r v
    cases r <;> rfl
  cases c with
  | dec =>
    change inputLeft (scanDec s.io.input >>= fun r => .ok (s.store ptrs (.word r.1) r.2)) = _
    rw [hstore]
    exact leftOf_skipBlanks_bind (scanNumLoop isDec 10 0) isDec (leftOf_scanNumLoop isDec 10 0) _
  | hex =>
    change inputLeft (scanHex s.io.input >>= fun r => .ok (s.store ptrs (.word r.1) r.2)) = _
    rw [hstore]
    exact leftOf_skipBlanks_bind (scanNumLoop isHex 16 0) isHex (leftOf_scanNumLoop isHex 16 0) _
  | string =>
    change inputLeft (scanString s.io.input >>= fun r => .ok (s.store ptrs (.string r.1) r.2)) = _
    rw [hstore]
    exact leftOf_skipBlanks_bind _ _ leftOf_scanStringLoop _
  | char =>
    change inputLeft (skipBlanks s.io.input >>= fun r => .ok (s.store ptrs (.char r.1) r.2)) = _
    rw [hstore, skipBlanks_eq, Conversion.left, if_pos rfl, Conversion.rest, Conversion.behind,
      if_pos rfl]
    cases s.io.input.dropWhile isBlank <;> rfl

/-! ### The run -/

/-- `scanf` on a format of conversions carries them out in order. -/
theorem scanf_formatOf (cs : List Conversion) : scanf ptrs (formatOf cs ++ [0]) io =
    cs.foldlM (fun s c => scanDirective ptrs c.letter s) ⟨{ io with outlen := 0 }, 0, []⟩ >>= fun s =>
      .ok ([0], s) := by
  rw [scanf]
  generalize (⟨{ io with outlen := 0 }, 0, []⟩ : ScanState) = s
  induction cs generalizing s with
  | nil => rfl
  | cons c cs ih =>
    have hletter : c.letter ≠ 32 := by cases c <;> decide
    have hmem : formatOf (c :: cs) ++ [0] = 37 :: c.letter :: (formatOf cs ++ [0]) := by
      simp [formatOf]
    rw [hmem, formatLoop, if_neg (by decide), if_pos rfl, formatLoop, if_neg hletter,
      List.foldlM_cons]
    cases scanDirective ptrs c.letter s with
    | error e => rfl
    | ok t => exact ih t

/-- What the keyboard still delivers after these conversions; a run that waits has taken all. -/
def unscanned (ptrs : ℕ → UInt32) (io : UserIO) (cs : List Conversion) : List UInt8 :=
  match scanf ptrs (formatOf cs ++ [0]) io with
  | .ok r => r.2.io.input
  | .error _ => []

/-- Nothing is left of nothing. -/
theorem foldl_left_nil (cs : List Conversion) :
    cs.foldl (fun input c => c.left input) [] = [] := by
  induction cs with
  | nil => rfl
  | cons c cs ih =>
    have hnil : c.left [] = [] := by cases c <;> rfl
    rw [List.foldl_cons, hnil, ih]

/-- **The run of `scanf`**, by induction on the conversions with the state generalised. -/
theorem unscanned_eq (cs : List Conversion) :
    unscanned ptrs io cs = cs.foldl (fun input c => c.left input) io.input := by
  have hrun : ∀ s : ScanState,
      inputLeft (cs.foldlM (fun s c => scanDirective ptrs c.letter s) s) =
        cs.foldl (fun input c => c.left input) s.io.input := by
    induction cs with
    | nil => exact fun s => rfl
    | cons c cs ih =>
      intro s
      have hone : inputLeft (scanDirective ptrs c.letter s) = c.left s.io.input :=
        inputLeft_scanDirective c s
      rw [List.foldlM_cons, List.foldl_cons, ← hone]
      cases scanDirective ptrs c.letter s with
      | error e => exact (foldl_left_nil cs).symm
      | ok t => exact ih t
  rw [← hrun ⟨{ io with outlen := 0 }, 0, []⟩, unscanned, scanf_formatOf]
  cases cs.foldlM (fun s c => scanDirective ptrs c.letter s) _ <;> rfl

/-- One conversion more. -/
theorem unscanned_snoc (done : List Conversion) (c : Conversion) :
    unscanned ptrs io (done ++ [c]) = c.left (unscanned ptrs io done) := by
  rw [unscanned_eq, unscanned_eq, List.foldl_append]
  rfl

/-! ### What is lost -/

/-- **Every conversion takes its own characters**: the leading blanks and the token, and nothing
behind it. -/
def TakesOwn (ptrs : ℕ → UInt32) (io : UserIO) (cs : List Conversion) : Prop :=
  ∀ done c todo, cs = done ++ c :: todo →
    unscanned ptrs io done = c.own (unscanned ptrs io done) ++ unscanned ptrs io (done ++ [c])

/-- What a conversion takes from behind its token are blanks. -/
def LosesBlanks (ptrs : ℕ → UInt32) (io : UserIO) (cs : List Conversion) : Prop :=
  ∀ done c todo, cs = done ++ c :: todo → ∃ lost, (∀ d ∈ lost, isBlank d = true) ∧
    unscanned ptrs io done =
      c.own (unscanned ptrs io done) ++ lost ++ unscanned ptrs io (done ++ [c])

/-- A character that ends the token of a `%d` or a `%x`, and is not a blank, is the first one that
the next conversion sees. -/
def SeesDelimiters (ptrs : ℕ → UInt32) (io : UserIO) (cs : List Conversion) : Prop :=
  ∀ done c todo, cs = done ++ c :: todo → c = .dec ∨ c = .hex → ∀ d text,
    c.rest (unscanned ptrs io done) = d :: text → isBlank d = false →
      unscanned ptrs io (done ++ [c]) = d :: text

/-- The text ends behind the token of every `%d`, `%x` and `%s`. -/
def TextEnds (cs : List Conversion) (text : List UInt8) : Prop :=
  ∀ done c todo, cs = done ++ c :: todo → c ≠ .char → c.rest (cut done text) = []

/-- Behind the token of every `%d` and `%x` there is a blank, or the text ends. -/
def BlankBehind (cs : List Conversion) (text : List UInt8) : Prop :=
  ∀ done c todo, cs = done ++ c :: todo → c = .dec ∨ c = .hex → ∀ d behind,
    c.rest (cut done text) = d :: behind → isBlank d = true

variable {cs : List Conversion}

/-- A conversion has left what it ought to if and only if it could not read on. -/
theorem takesOwn_iff : TakesOwn ptrs io cs ↔ TextEnds cs io.input := by
  have hone : ∀ (c : Conversion) input,
      input = c.own input ++ c.left input ↔ (c ≠ .char → c.rest input = []) := by
    intro c input
    have hall := c.own_append_rest input
    constructor
    · intro h hc
      have htail : (c.rest input).tail = c.rest input := by
        rw [Conversion.left, if_neg hc] at h
        exact List.append_cancel_left (h.symm.trans hall.symm)
      cases hr : c.rest input with
      | nil => rfl
      | cons d text =>
        rw [hr] at htail
        exact absurd htail.symm (List.cons_ne_self d text)
    · intro h
      by_cases hc : c = .char
      · rw [Conversion.left, if_pos hc, hall]
      · rw [Conversion.left, if_neg hc, h hc, List.tail_nil]
        rw [h hc] at hall
        exact hall.symm
  have hsides := forall_splits_foldl_iff (R := fun x y : List UInt8 => x = y)
    (P := fun (c : Conversion) input => c ≠ .char → c.rest input = [])
    (f := fun input c => c.left input) (g := fun input c => c.rest input)
    (fun c x y hxy => by rw [hxy])
    (fun c x y hxy hp => by
      subst hxy
      by_cases hc : c = .char
      · rw [Conversion.left, if_pos hc]
      · rw [Conversion.left, if_neg hc, hp hc]
        rfl) (x := io.input) rfl cs
  simp only [TakesOwn, unscanned_snoc, hone]
  simp only [unscanned_eq]
  exact hsides

/-- The character behind the token of a `%s` is a blank. -/
theorem isBlank_of_rest {c : Conversion} {input text : List UInt8} {d : UInt8} (hc : c = .string)
    (h : c.rest input = d :: text) : isBlank d = true := by
  subst hc
  have hd := List.head?_dropWhile_not Conversion.string.inToken (input.dropWhile isBlank)
  have hrest : (input.dropWhile isBlank).dropWhile Conversion.string.inToken = d :: text := h
  rw [hrest] at hd
  simpa [Conversion.inToken] using hd

/-- The condition on one conversion. -/
def blankBehind (c : Conversion) (input : List UInt8) : Prop :=
  c = .dec ∨ c = .hex → ∀ d text, c.rest input = d :: text → isBlank d = true

/-- The character behind a token is a blank. -/
theorem isBlank_of_blankBehind {c : Conversion} {input text : List UInt8} {d : UInt8}
    (h : blankBehind c input) (hc : c ≠ .char) (hr : c.rest input = d :: text) :
    isBlank d = true := by
  cases c with
  | dec => exact h (.inl rfl) d text hr
  | hex => exact h (.inr rfl) d text hr
  | string => exact isBlank_of_rest rfl hr
  | char => exact absurd rfl hc

/-- The two runs see the same text, but for a blank in front of it, while nothing else is lost. -/
theorem blankBehind_iff :
    (∀ done c todo, cs = done ++ c :: todo → blankBehind c (unscanned ptrs io done)) ↔
      BlankBehind cs io.input := by
  have hsides := forall_splits_foldl_iff
    (R := fun x y : List UInt8 => x.dropWhile isBlank = y.dropWhile isBlank)
    (P := blankBehind) (f := fun input c => c.left input) (g := fun input c => c.rest input)
    (fun c x y hxy => by rw [blankBehind, blankBehind, c.rest_congr hxy])
    (fun c x y hxy hp => by
      rw [← c.rest_congr hxy]
      by_cases hc : c = .char
      · rw [Conversion.left, if_pos hc]
      · rw [Conversion.left, if_neg hc]
        cases hr : c.rest x with
        | nil => rfl
        | cons d text =>
          rw [List.tail_cons, List.dropWhile_cons, if_pos (isBlank_of_blankBehind hp hc hr)])
    (x := io.input) rfl cs
  simp only [unscanned_eq]
  exact hsides

/-- One conversion loses blanks only if and only if a blank, or nothing, is behind its token. -/
theorem losesBlanks_iff : LosesBlanks ptrs io cs ↔ BlankBehind cs io.input := by
  have hone : ∀ (c : Conversion) input, (∃ lost, (∀ d ∈ lost, isBlank d = true) ∧
      input = c.own input ++ lost ++ c.left input) ↔ blankBehind c input := by
    intro c input
    have hall := c.own_append_rest input
    constructor
    · rintro ⟨lost, hblank, h⟩ hc d text hr
      have hchar : c ≠ .char := by rcases hc with rfl | rfl <;> decide
      rw [List.append_assoc] at h
      have hrest : c.rest input = lost ++ c.left input := List.append_cancel_left (hall.trans h)
      rw [Conversion.left, if_neg hchar, hr, List.tail_cons] at hrest
      cases lost with
      | nil => exact absurd hrest (List.cons_ne_self d text)
      | cons e lost =>
        obtain ⟨rfl, -⟩ := List.cons.inj hrest
        exact hblank d (by simp)
    · intro h
      by_cases hc : c = .char
      · exact ⟨[], by simp, by rw [Conversion.left, if_pos hc, List.append_nil, hall]⟩
      · cases hr : c.rest input with
        | nil =>
          refine ⟨[], by simp, ?_⟩
          rw [Conversion.left, if_neg hc, List.append_nil, hr, List.tail_nil]
          rw [hr] at hall
          exact hall.symm
        | cons d text =>
          refine ⟨[d], by simpa using isBlank_of_blankBehind h hc hr, ?_⟩
          rw [Conversion.left, if_neg hc, hr, List.tail_cons, List.append_assoc,
            List.singleton_append, ← hr, hall]
  simp only [LosesBlanks, unscanned_snoc, hone]
  exact blankBehind_iff

/-- The delimiter of a `%d` or a `%x` has been read, so it can only be seen again if it is lost. -/
theorem seesDelimiters_iff : SeesDelimiters ptrs io cs ↔ BlankBehind cs io.input := by
  have hone : ∀ (c : Conversion) input, (c = .dec ∨ c = .hex → ∀ d text, c.rest input = d :: text →
      isBlank d = false → c.left input = d :: text) ↔ blankBehind c input := by
    intro c input
    constructor
    · intro h hc d text hr
      have hchar : c ≠ .char := by rcases hc with rfl | rfl <;> decide
      by_contra hd
      have hleft := h hc d text hr (Bool.eq_false_iff.mpr hd)
      rw [Conversion.left, if_neg hchar, hr, List.tail_cons] at hleft
      exact absurd hleft.symm (List.cons_ne_self d text)
    · intro h hc d text hr hd
      rw [h hc d text hr] at hd
      cases hd
  simp only [SeesDelimiters, unscanned_snoc, hone]
  exact blankBehind_iff

/-- **Scanning and the input.** For every text and every format of conversions: every conversion
takes the leading blanks and its own token and nothing else if and only if the text ends behind the
token of every `%d`, `%x` and `%s`. It takes blanks only from behind its token, and the next
conversion sees every other character that ends the token of a `%d` or a `%x`, if and only if there
is a blank or nothing behind each of these. -/
theorem scanf_loses_iff (ptrs : ℕ → UInt32) (io : UserIO) (cs : List Conversion) :
    (TakesOwn ptrs io cs ↔ TextEnds cs io.input) ∧
      (LosesBlanks ptrs io cs ↔ BlankBehind cs io.input) ∧
      (SeesDelimiters ptrs io cs ↔ BlankBehind cs io.input) :=
  ⟨takesOwn_iff, losesBlanks_iff, seesDelimiters_iff⟩

/-- A process whose keyboard delivers this text. -/
def typing (text : List UInt8) : UserIO := ⟨fun _ => 0, 0, fun _ => 0, 0, text, []⟩

/-- `%d%c` on the text `12a7` and a newline: the letter that ends the number is lost, and the `%c`
gets the digit behind it. -/
theorem letter_is_lost :
    ¬TakesOwn (fun _ => 0) (typing [49, 50, 97, 55, 10]) [.dec, .char] ∧
      ¬SeesDelimiters (fun _ => 0) (typing [49, 50, 97, 55, 10]) [.dec, .char] := by
  have hrest : Conversion.dec.rest (cut [] [49, 50, 97, 55, 10]) = [97, 55, 10] := by decide
  constructor
  · intro h
    have hend := takesOwn_iff.mp h [] .dec [.char] rfl (by decide)
    exact absurd (hrest.symm.trans hend) (by decide)
  · intro h
    have hblank := seesDelimiters_iff.mp h [] .dec [.char] rfl (.inl rfl) 97 [55, 10] hrest
    exact absurd hblank (by decide)

end OsLab
