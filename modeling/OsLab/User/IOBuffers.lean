import OsLab.User.Rendering

/-!
# How much the library's buffers take

`outbuf` and `inbuf` have 1024 bytes, and nothing on the way to them counts.

* `formatText` is what a format prints, also one that ends inside a directive; on a complete format it
  is the rendering (`formatText_spell`). `printedFrom` is what the loop of `printf` prints from a pointer
  on, whatever lies there.
* `printf_writes_iff`: `printf` writes a text exactly if that is what is printed, and it fits. So a
  complete format is delivered if its rendering fits, whatever lies behind it (`printfDelivers_spell`).
* `getsLoop_line`: `gets` stores a line at the same indices of `inbuf` and of the caller's buffer,
  as long as the line and its newline fit.
* `ioBuffers_iff`: **the output or line is delivered** exactly if the output has at most 1024
  characters, nothing is printed from behind the format, and the line has fewer than 1024.
-/

namespace OsLab

open OsLab.Lib

variable {format after mem typed rest text out : List UInt8} {args : ℕ → Arg} {io : UserIO}
  {s : ℕ → UInt8}

/-! ### What is printed from a pointer on -/

/-- What a format prints, the next argument being number `k`; the flag says that a `%` has been read.
A directive without a letter prints nothing. -/
def formatText (args : ℕ → Arg) : Bool → ℕ → List UInt8 → List UInt8
  | _, _, [] => []
  | false, k, c :: format =>
    if c = 37 then formatText args true k format else c :: formatText args false k format
  | true, k, c :: format =>
    if c = 32 then formatText args true k format
    else directiveText c (args k) ++ formatText args false (k + directiveArgs c) format

/-- The number of the next argument behind a format. -/
def formatArgs : Bool → ℕ → List UInt8 → ℕ
  | _, k, [] => k
  | false, k, c :: format => formatArgs (c = 37) k format
  | true, k, c :: format =>
    if c = 32 then formatArgs true k format else formatArgs false (k + directiveArgs c) format

/-- What the memory from a pointer on prints, up to the NUL that ends the loop; none if there is no
such NUL. -/
def printedFrom (args : ℕ → Arg) : Bool → ℕ → List UInt8 → Option (List UInt8)
  | _, _, [] => none
  | false, k, c :: mem =>
    if c = 0 then some []
    else if c = 37 then printedFrom args true k mem
    else (printedFrom args false k mem).map (c :: ·)
  | true, k, c :: mem =>
    if c = 32 then printedFrom args true k mem
    else (printedFrom args false (k + directiveArgs c) mem).map (directiveText c (args k) ++ ·)

/-- Spaces in a directive are skipped. -/
theorem formatText_spaces (n k : ℕ) {c : UInt8} (hc : c ≠ 32) :
    formatText args true k (List.replicate n 32 ++ c :: rest) =
      directiveText c (args k) ++ formatText args false (k + directiveArgs c) rest := by
  induction n with
  | zero => simp [formatText, hc]
  | succ n ih => simpa [List.replicate_succ, formatText] using ih

/-- **A complete format prints its rendering.** -/
theorem formatText_spell (items : List Item) (k : ℕ) :
    formatText args false k (spell items) = render args k items := by
  induction items generalizing k with
  | nil => rfl
  | cons i items ih =>
    cases i with
    | char c hc => simp [Item.spell, formatText, hc.2, render, ih]
    | directive n c hc =>
      have hformat : spell (.directive n c hc :: items) =
          37 :: (List.replicate n 32 ++ c :: spell items) := by
        simp [Item.spell]
      rw [hformat, formatText, if_pos rfl, formatText_spaces n k hc.2, ih, render]

/-- **Behind the NUL**: a format that does not end inside a directive prints its text and no more. On
any other the NUL is the letter of the directive, and what lies behind it is printed too. -/
theorem printed_format {b : Bool} {k : ℕ} (h0 : (0 : UInt8) ∉ format) :
    printedFrom args b k (format ++ 0 :: after) =
      if inDirective b format then
        (printedFrom args false (formatArgs b k format) after).map (formatText args b k format ++ ·)
      else some (formatText args b k format) := by
  induction format generalizing b k with
  | nil =>
    cases b with
    | false => rfl
    | true =>
      have hnul : directiveText 0 (args k) = [] ∧ directiveArgs 0 = 0 := ⟨rfl, rfl⟩
      simp [printedFrom, inDirective, formatText, formatArgs, hnul]
  | cons c format ih =>
    have hc : c ≠ 0 := fun he => h0 (by simp [he])
    have ih := fun {b k} => ih (b := b) (k := k) fun hm => h0 (List.mem_cons_of_mem _ hm)
    cases b with
    | false =>
      rw [List.cons_append, printedFrom, if_neg hc]
      by_cases h37 : c = 37
      · rw [if_pos h37, ih]
        simp [inDirective, formatText, formatArgs, h37]
      · rw [if_neg h37, ih]
        by_cases hd : inDirective false format <;>
          simp [inDirective, formatText, formatArgs, h37, hd, Function.comp_def]
    | true =>
      rw [List.cons_append, printedFrom]
      by_cases h32 : c = 32
      · rw [if_pos h32, ih]
        simp [inDirective, formatText, formatArgs, h32]
      · rw [if_neg h32, ih]
        by_cases hd : inDirective false format <;>
          simp [inDirective, formatText, formatArgs, h32, hd, Function.comp_def]

/-- **The loop of a printer** sends what is printed to its device; the induction is on the memory. -/
theorem formatLoop_printed {ε σ : Type} {put : UInt8 → σ → Except ε σ} {past : ε} {b : Bool} {k : ℕ}
    {t : σ} (h : printedFrom args b k mem = some text) :
    ∃ p n, formatLoop past (fun c s => do
      let t ← put c s.2
      .ok (s.1, t)) (printDirective put args) b mem (k, t) =
        printString put text t >>= fun t => .ok (p, n, t) := by
  induction mem generalizing b k t text with
  | nil => cases b <;> cases h
  | cons c mem ih =>
    cases b with
    | false =>
      rw [printedFrom] at h
      rw [formatLoop]
      split_ifs at h ⊢ with h0 h37
      · obtain rfl := Option.some.inj h
        exact ⟨c :: mem, k, rfl⟩
      · exact ih h
      · obtain ⟨text, htext, rfl⟩ := Option.map_eq_some_iff.mp h
        rw [printString]
        cases put c t with
        | error e => exact ⟨[], 0, rfl⟩
        | ok t => exact ih htext
    | true =>
      rw [printedFrom] at h
      rw [formatLoop]
      split_ifs at h ⊢ with h32
      · exact ih h
      · obtain ⟨text, htext, rfl⟩ := Option.map_eq_some_iff.mp h
        rw [printDirective_eq, printString_append]
        cases printString put (directiveText c (args k)) t with
        | error e => exact ⟨[], 0, rfl⟩
        | ok t => exact ih htext

/-- Without a NUL it does not end. -/
theorem formatLoop_not_printed {ε σ : Type} {put : UInt8 → σ → Except ε σ} {past : ε} {b : Bool} {k : ℕ}
    {t : σ} (h : printedFrom args b k mem = none) (r : List UInt8 × ℕ × σ) :
    formatLoop past (fun c s => do
      let t ← put c s.2
      .ok (s.1, t)) (printDirective put args) b mem (k, t) ≠ .ok r := by
  intro hrun
  induction mem generalizing b k t with
  | nil => cases b <;> cases hrun
  | cons c mem ih =>
    cases b with
    | false =>
      rw [printedFrom] at h
      rw [formatLoop] at hrun
      split_ifs at h hrun with h0 h37
      · exact ih h hrun
      · obtain ⟨s, hs, hrun⟩ := bind_eq_ok.mp hrun
        obtain ⟨t', -, hs⟩ := bind_eq_ok.mp hs
        obtain rfl := Except.ok.inj hs
        exact ih (Option.map_eq_none_iff.mp h) hrun
    | true =>
      rw [printedFrom] at h
      rw [formatLoop] at hrun
      split_ifs at h hrun with h32
      · exact ih h hrun
      · rw [printDirective_eq] at hrun
        obtain ⟨s, hs, hrun⟩ := bind_eq_ok.mp hrun
        obtain ⟨t', -, hs⟩ := bind_eq_ok.mp hs
        obtain rfl := Except.ok.inj hs
        exact ih (Option.map_eq_none_iff.mp h) hrun

/-! ### `outbuf` -/

/-- A text that does not fit: the store to `outbuf[1024]` stops the process. -/
theorem printString_printCh_full (hle : io.outlen ≤ max_size)
    (h : max_size < io.outlen + text.length) :
    printString printCh text io = .error .outbuf := by
  induction text generalizing io with
  | nil => exact absurd h (by simpa using hle)
  | cons c text ih =>
    rw [List.length_cons] at h
    by_cases hlt : io.outlen < max_size
    · rw [printString, printCh, if_pos hlt, ok_bind]
      exact ih (by simp only; omega) (by simp only; omega)
    · rw [printString, printCh, if_neg hlt, error_bind]

/-- **`printf` writes** a text in one `NR_write` exactly if that is what is printed from its format
on, and it fits into `outbuf`. -/
theorem printf_writes_iff :
    (∃ io', printf args mem io = .ok io' ∧ io'.written = io.written ++ out) ↔
      printedFrom args false 0 mem = some out ∧ out.length ≤ max_size := by
  cases hp : printedFrom args false 0 mem with
  | none =>
    refine iff_of_false ?_ (by simp)
    rintro ⟨io', hrun, -⟩
    obtain ⟨r, hloop, -⟩ := bind_eq_ok.mp hrun
    exact formatLoop_not_printed hp r hloop
  | some text =>
    obtain ⟨p, n, hloop⟩ : ∃ p n, printfLoop args mem io =
        printString printCh text { io with outlen := 0 } >>= fun t => .ok (p, n, t) :=
      formatLoop_printed hp
    by_cases hlen : text.length ≤ max_size
    · obtain ⟨io1, hrun, htext, hrest⟩ :=
        printString_printCh text { io with outlen := 0 } (by simpa using hlen)
      have hwritten : io1.written = io.written := by rw [hrest]
      have hprintf : printf args mem io = .ok { io1 with written := io.written ++ text } := by
        rw [printf, hloop, hrun, ok_bind, ok_bind, hwritten, htext]
        simp [ UserIO.outText]
      constructor
      · rintro ⟨io', hio, hout⟩
        obtain rfl := Except.ok.inj (hprintf.symm.trans hio)
        obtain rfl := List.append_cancel_left hout
        exact ⟨rfl, hlen⟩
      · rintro ⟨htext, -⟩
        obtain rfl := Option.some.inj htext
        exact ⟨_, hprintf, rfl⟩
    · refine iff_of_false ?_ ?_
      · rintro ⟨io', hio, -⟩
        rw [printf, hloop, printString_printCh_full (by simp) (by simpa using hlen)] at hio
        cases hio
      · rintro ⟨htext, hout⟩
        obtain rfl := Option.some.inj htext
        exact hlen hout

/-- `printf` returns, with everything that the format prints, and nothing else, in one `NR_write`;
`after` is the memory behind the NUL of the format. -/
def PrintfDelivers (args : ℕ → Arg) (format after : List UInt8) (io : UserIO) : Prop :=
  ∃ io', printf args (format ++ 0 :: after) io = .ok io' ∧
    io'.written = io.written ++ formatText args false 0 format

/-- The part of `printf`. -/
theorem printfDelivers_iff (h0 : (0 : UInt8) ∉ format) : PrintfDelivers args format after io ↔
    (formatText args false 0 format).length ≤ max_size ∧ (inDirective false format = false ∨
      printedFrom args false (formatArgs false 0 format) after = some []) := by
  unfold PrintfDelivers
  rw [printf_writes_iff, printed_format h0, and_comm]
  refine and_congr_right fun _ => ?_
  cases hd : inDirective false format with
  | false => simp
  | true => simp [Option.map_eq_some_iff]

/-- A complete format is delivered if its rendering fits, whatever lies behind it. -/
theorem printfDelivers_spell {items : List Item} (h0 : (0 : UInt8) ∉ spell items) :
    PrintfDelivers args (spell items) after io ↔ (render args 0 items).length ≤ max_size := by
  rw [printfDelivers_iff h0, formatText_spell]
  exact and_iff_left (.inl (inDirective_spell items))

/-! ### `inbuf` -/

/-- **The loop of `gets`** at index `n`: the induction is on the rest of the line. -/
theorem getsLoop_line (s inbuf : ℕ → UInt8) (n : ℕ) (rest : List UInt8) (h10 : (10 : UInt8) ∉ typed)
    (hn : n ≤ max_size) :
    (n + typed.length < max_size → ∃ s' inbuf',
      getsLoop s inbuf n (typed ++ 10 :: rest) = .ok (s', inbuf', n + typed.length, rest) ∧
      (∀ i < n, s' i = s i) ∧ (∀ i (h : i < typed.length), s' (n + i) = typed[i]) ∧
      s' (n + typed.length) = 0) ∧
    (max_size ≤ n + typed.length →
      getsLoop s inbuf n (typed ++ 10 :: rest) = .error .inbuf) := by
  induction typed generalizing s inbuf n with
  | nil =>
    refine ⟨fun h => ?_, fun h => ?_⟩
    · rw [List.length_nil, Nat.add_zero] at h
      refine ⟨Function.update s n 0, Function.update inbuf n 10, ?_, ?_, ?_, ?_⟩
      · simp [getsLoop, h]
      · exact fun i hi => Function.update_of_ne (by omega) _ _
      · exact fun i hi => absurd hi (by simp)
      · simp
    · rw [List.length_nil, Nat.add_zero] at h
      simp [getsLoop, Nat.not_lt.mpr h]
  | cons c typed ih =>
    have hc : c ≠ 10 := fun he => h10 (by simp [he])
    have hlen : (c :: typed).length = typed.length + 1 := rfl
    by_cases hlt : n < max_size
    · have hstep : getsLoop s inbuf n (c :: typed ++ 10 :: rest) =
          getsLoop (Function.update s n c) (Function.update inbuf n c) (n + 1)
            (typed ++ 10 :: rest) := by
        rw [List.cons_append, getsLoop, if_pos hlt]
        simp [hc]
      obtain ⟨hfit, hfull⟩ := ih (Function.update s n c) (Function.update inbuf n c)
        (n + 1) (fun hm => h10 (List.mem_cons_of_mem _ hm)) hlt
      rw [hstep]
      refine ⟨fun h => ?_, fun h => hfull (by omega)⟩
      obtain ⟨s', inbuf', hrun, hlow, hline, hend⟩ := hfit (by omega)
      have hsum : n + 1 + typed.length = n + (c :: typed).length := by omega
      refine ⟨s', inbuf', by rw [hrun, hsum], fun i hi => ?_, fun i hi => ?_, by rw [← hsum, hend]⟩
      · rw [hlow i (by omega), Function.update_of_ne (by omega)]
      · cases i with
        | zero => rw [Nat.add_zero, hlow n (by omega), Function.update_self]; rfl
        | succ i =>
          rw [show n + (i + 1) = n + 1 + i by omega, hline i (by simpa using hi)]
          rfl
    · refine ⟨fun h => absurd h (by omega), fun _ => ?_⟩
      rw [List.cons_append, getsLoop, if_neg hlt]

/-- `gets` returns, with the typed line in the caller's buffer. -/
def GetsDelivers (typed rest : List UInt8) (s : ℕ → UInt8) (io : UserIO) : Prop :=
  ∃ s' io', gets s { io with input := typed ++ 10 :: rest } = .ok (s', io') ∧
    (∀ i (h : i < typed.length), s' i = typed[i]) ∧ s' typed.length = 0 ∧ io'.input = rest

/-- The part of `gets`. -/
theorem getsDelivers_iff (h10 : (10 : UInt8) ∉ typed) :
    GetsDelivers typed rest s io ↔ typed.length < max_size := by
  obtain ⟨hfit, hfull⟩ := getsLoop_line s io.inbuf 0 rest h10 (by decide)
  constructor
  · rintro ⟨s', io', hrun, -⟩
    by_contra hlen
    rw [gets, hfull (by omega)] at hrun
    cases hrun
  · intro hlen
    obtain ⟨s', inbuf', hrun, -, hline, hend⟩ := hfit (by omega)
    rw [Nat.zero_add] at hend
    refine ⟨s', { io with inbuf := inbuf', inlen := 0 + typed.length, input := rest }, ?_, ?_, hend,
      rfl⟩
    · rw [gets, hrun]
      rfl
    · exact fun i hi => by simpa using hline i hi

/-! ### Both -/

/-- **The user buffers.** `printf` delivers the complete output, and touches no index of `outbuf`
from 1024 on, if and only if the format prints at most 1024 characters and does not end inside a
directive, or has nothing to print behind it; `gets` delivers the complete line, and touches no such
index of `inbuf`, if and only if the line has fewer than 1024. -/
theorem ioBuffers_iff (args : ℕ → Arg) (format after typed rest : List UInt8) (s : ℕ → UInt8)
    (io : UserIO) (h0 : (0 : UInt8) ∉ format) (h10 : (10 : UInt8) ∉ typed) :
    (PrintfDelivers args format after io ↔
      (formatText args false 0 format).length ≤ max_size ∧ (inDirective false format = false ∨
        printedFrom args false (formatArgs false 0 format) after = some [])) ∧
    (GetsDelivers typed rest s io ↔ typed.length < max_size) :=
  ⟨printfDelivers_iff h0, getsDelivers_iff h10⟩

/-- `printf("hi%")` with another NUL behind it, and a line of two letters. -/
theorem ioBuffers_iff_hi : ∃ io : UserIO,
    PrintfDelivers (fun _ => ⟨0, []⟩) [104, 105, 37] [0] io ∧
      GetsDelivers [104, 105] [] (fun _ => 0) io := by
  obtain ⟨hprintf, hgets⟩ := ioBuffers_iff (fun _ => ⟨0, []⟩) [104, 105, 37] [0] [104, 105] []
    (fun _ => 0) ⟨fun _ => 0, 0, fun _ => 0, 0, [], []⟩ (by decide) (by decide)
  exact ⟨_, hprintf.mpr (by decide), hgets.mpr (by decide)⟩

/-- A line of 1024 letters: `gets` reads its newline to `inbuf[1024]`. -/
theorem long_line_overruns :
    ¬∀ (args : ℕ → Arg) (format after typed rest : List UInt8) (s : ℕ → UInt8) (io : UserIO),
      (0 : UInt8) ∉ format → (10 : UInt8) ∉ typed →
        PrintfDelivers args format after io ∧ GetsDelivers typed rest s io := by
  intro h
  have hno : (10 : UInt8) ∉ List.replicate 1024 (97 : UInt8) := by
    rw [List.mem_replicate]
    decide
  have hg := (h (fun _ => ⟨0, []⟩) [] [] (List.replicate 1024 97) [] (fun _ => 0)
    ⟨fun _ => 0, 0, fun _ => 0, 0, [], []⟩ (by simp) hno).2
  have hlt := (getsDelivers_iff hno).mp hg
  rw [List.length_replicate] at hlt
  exact absurd hlt (by decide)

end OsLab
