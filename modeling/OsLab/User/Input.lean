import OsLab.User.Terminal

/-!
# The library's input functions on the kernel

`gets`, `getchar` and the `scan` functions of `lib/syscall.c` as programs: they read one character at a
time with a system call, and look at it in memory.

* `InputCall.code`: their code. What they do with the stream of characters is in `Stdio`
  (`gets`, `skipBlanks`, `scanString`, `scanDec`, `scanHex`), and `InputCall.Delivers` says in which
  of its terms.
* `InputCall.run_delivers`: alone on a stream, the code does that. Each loop keeps the value of the
  function of `Stdio` on what is left.
* `input_delivered`: so it does on the kernel, whatever comes between its steps.
-/

namespace OsLab

open OsLab.Lib

/-- The variables of the input functions. `ch` is what they have loaded last. -/
structure InputVars where
  ch : UInt8
  inlen : ℕ
  len : ℕ
  num : UInt32

/-! ### The code -/

/-- `ch = *a`. -/
def loadCh (a : InputVars → ℕ) : Code userInterface InputVars :=
  .call (fun l => .load (a l)) fun l c => { l with ch := c }

/-- `syscall(NR_read, stdin, a, 1, 0, 0)`, and a load of the character. -/
def readCh (a : InputVars → ℕ) : Code userInterface InputVars :=
  .seq (.call (fun l => .sys (.read stdin (a l) 1)) fun l _ => l) (loadCh a)

/-- `*a = c`. -/
def storeCh (a : InputVars → ℕ) (c : InputVars → UInt8) : Code userInterface InputVars :=
  .call (fun l => .store (a l) (c l)) fun l _ => l

/-- `*arg = num`, byte by byte. -/
def storeNum (arg : ℕ) : Code userInterface InputVars :=
  .seq (.seq (storeCh (fun _ => arg) fun l => wordByte l.num 0)
      (storeCh (fun _ => arg + 1) fun l => wordByte l.num 1))
    (.seq (storeCh (fun _ => arg + 2) fun l => wordByte l.num 2)
      (storeCh (fun _ => arg + 3) fun l => wordByte l.num 3))

/-- `gets`, with `inbuf` at address `inbuf`. -/
def getsCode (inbuf s : ℕ) : Code userInterface InputVars :=
  .seq (.assign fun l => { l with inlen := 0 })
    (.seq (readCh fun _ => inbuf)
      (.seq
        (.loop (fun l => l.ch ≠ 10)
          (.seq (.seq (loadCh fun l => inbuf + l.inlen) (storeCh (fun l => s + l.inlen) fun l => l.ch))
            (.seq (.assign fun l => { l with inlen := l.inlen + 1 })
              (readCh fun l => inbuf + l.inlen))))
        (storeCh (fun l => s + l.inlen) fun _ => 0)))

/-- `getchar`; the character returned is in `ch`. -/
def getcharCode (inbuf : ℕ) : Code userInterface InputVars :=
  .seq (.assign fun l => { l with inlen := 0 }) (readCh fun _ => inbuf)

/-- What the `scan` functions begin with; their variable `ch` is at address `ch`. -/
def scanStart (ch : ℕ) : Code userInterface InputVars :=
  .seq (.assign fun l => { l with len := 0, num := 0 })
    (.seq (storeCh (fun _ => ch) fun _ => 32)
      (.seq (readCh fun _ => ch)
        (.loop (fun l => l.ch = 10 ∨ l.ch = 32) (readCh fun _ => ch))))

/-- `scan_ch`. -/
def scanChCode (ch arg : ℕ) : Code userInterface InputVars :=
  .seq (scanStart ch) (storeCh (fun _ => arg) fun l => l.ch)

/-- `scan_string`. -/
def scanStringCode (ch arg : ℕ) : Code userInterface InputVars :=
  .seq (scanStart ch)
    (.seq
      (.loop (fun l => l.ch ≠ 10 ∧ l.ch ≠ 32)
        (.seq (storeCh (fun l => arg + l.len) fun l => l.ch)
          (.seq (.assign fun l => { l with len := l.len + 1 }) (readCh fun _ => ch))))
      (storeCh (fun l => arg + l.len) fun _ => 0))

/-- The second half of `scan_dec` and `scan_hex`. -/
def scanNumCode (digit : UInt8 → Bool) (base : UInt32) (value : UInt8 → UInt32) (ch arg : ℕ) :
    Code userInterface InputVars :=
  .seq
    (.loop (fun l => digit l.ch)
      (.seq (.assign fun l => { l with num := l.num * base + value l.ch }) (readCh fun _ => ch)))
    (storeNum arg)

/-- `scan_dec`. -/
def scanDecCode (ch arg : ℕ) : Code userInterface InputVars :=
  .seq (scanStart ch) (scanNumCode isDec 10 (fun c => c.toUInt32 - 48) ch arg)

/-- `scan_hex`. -/
def scanHexCode (ch arg : ℕ) : Code userInterface InputVars :=
  .seq (scanStart ch)
    (scanNumCode isHex 16 (fun c => if isDec c then c.toUInt32 - 48 else c.toUInt32 - 97 + 10) ch arg)

/-! ### On a stream -/

variable {own : ℕ → Bool} {P Q : InputVars → Stream → Prop} {inbuf s ch arg : ℕ} {σ σ' σ0 : Stream}
  {l l' : InputVars}

/-- The rule for a byte that is loaded. -/
theorem triple_loadCh {a : InputVars → ℕ}
    (h : ∀ l σ, P l σ → own (a l) → Q { l with ch := σ.mem (a l) } σ) :
    Triple (streamMeaning own) P (loadCh a) Q := by
  apply Triple.call
  intro l σ r σ' hp hm
  obtain ⟨hon, hm⟩ := onStream_of_streamMeaning hm
  obtain ⟨rfl, rfl⟩ := Prod.mk.inj (Except.ok.inj hm)
  exact h l σ hp hon

/-- The rule for a byte that is stored. -/
theorem triple_storeCh {a : InputVars → ℕ} {c : InputVars → UInt8}
    (h : ∀ l σ, P l σ → own (a l) → Q l { σ with mem := Function.update σ.mem (a l) (c l) }) :
    Triple (streamMeaning own) P (storeCh a c) Q := by
  apply Triple.call
  intro l σ r σ' hp hm
  obtain ⟨hon, hm⟩ := onStream_of_streamMeaning hm
  obtain ⟨-, rfl⟩ := Prod.mk.inj (Except.ok.inj hm)
  exact h l σ hp hon

/-- The rule for a character that is read. -/
theorem triple_readCh {a : InputVars → ℕ}
    (h : ∀ l σ c rest, P l σ → σ.input = c :: rest → own (a l) →
      Q { l with ch := c } { σ with mem := Function.update σ.mem (a l) c, input := rest }) :
    Triple (streamMeaning own) P (readCh a) Q := by
  refine Triple.seq (R := fun l σ' => ∃ σ c rest, P l σ ∧ σ.input = c :: rest ∧ own (a l) = true ∧
    σ' = { σ with mem := Function.update σ.mem (a l) c, input := rest }) ?_ ?_
  · apply Triple.call
    intro l σ r σ' hp hm
    obtain ⟨hon, hm⟩ := onStream_of_streamMeaning hm
    obtain ⟨-, -, hown⟩ : stdin = stdin ∧ (1 : ℤ) = 1 ∧ own (a l) = true := of_decide_eq_true hon
    cases hin : σ.input with
    | nil =>
      simp only [streamEffect, hin] at hm
      cases hm
    | cons c rest =>
      simp only [streamEffect, hin] at hm
      obtain ⟨-, rfl⟩ := Prod.mk.inj (Except.ok.inj hm)
      exact ⟨σ, c, rest, hp, hin, hown, rfl⟩
  · apply triple_loadCh
    rintro l σ' ⟨σ, c, rest, hp, hin, hown, rfl⟩ -
    have hq := h l σ c rest hp hin hown
    change Q { l with ch := Function.update σ.mem (a l) c (a l) } _
    rw [Function.update_self]
    exact hq

/-! ### Strings in memory -/

/-- The program has stored the characters `str` from address `a` on. -/
def StoredAt (own : ℕ → Bool) (mem : ℕ → UInt8) (a : ℕ) (str : List UInt8) : Prop :=
  ∀ i (h : i < str.length), own (a + i) = true ∧ mem (a + i) = str[i]

/-- The empty string is stored anywhere. -/
theorem StoredAt.nil {mem : ℕ → UInt8} {a : ℕ} : StoredAt own mem a [] :=
  fun i h => absurd h (Nat.not_lt_zero i)

/-- One more character. -/
theorem StoredAt.snoc {mem : ℕ → UInt8} {a : ℕ} {str : List UInt8} (h : StoredAt own mem a str)
    (hown : own (a + str.length)) (c : UInt8) :
    StoredAt own (Function.update mem (a + str.length) c) a (str ++ [c]) := by
  intro i hi
  rw [List.length_append, List.length_singleton] at hi
  rcases Nat.lt_succ_iff_lt_or_eq.mp hi with hlt | rfl
  · rw [List.getElem_append_left hlt, Function.update_of_ne (by omega)]
    exact h i hlt
  · rw [List.getElem_concat_length rfl, Function.update_self]
    exact ⟨hown, rfl⟩

/-- A store somewhere else. -/
theorem StoredAt.update {mem : ℕ → UInt8} {a x : ℕ} {str : List UInt8} (h : StoredAt own mem a str)
    (hx : ∀ i < str.length, a + i ≠ x) (c : UInt8) :
    StoredAt own (Function.update mem x c) a str := by
  intro i hi
  rw [Function.update_of_ne (hx i hi)]
  exact h i hi

/-! ### The functions -/

/-- The `scan` functions start with `skipBlanks`. -/
structure Skipped (σ0 : Stream) (l : InputVars) (σ : Stream) : Prop where
  blanks : skipBlanks σ0.input = skipBlanks (l.ch :: σ.input)
  written : σ.written = σ0.written
  len : l.len = 0
  num : l.num = 0

/-- What it finds is the first character that is not blank. -/
structure Found (σ0 : Stream) (l : InputVars) (σ : Stream) : Prop extends Skipped σ0 l σ where
  found : skipBlanks σ0.input = .ok (l.ch, σ.input)

/-- `scanStart` finds the first character that is no blank. -/
theorem triple_scanStart :
    Triple (streamMeaning own) (fun _ σ => σ = σ0) (scanStart ch) (Found σ0) := by
  refine Triple.seq (R := fun l σ => σ = σ0 ∧ l.len = 0 ∧ l.num = 0) ?_ ?_
  · exact Triple.assign fun l σ hσ => ⟨hσ, rfl, rfl⟩
  refine Triple.seq (R := fun l σ => σ.input = σ0.input ∧ σ.written = σ0.written ∧ l.len = 0 ∧
    l.num = 0) ?_ ?_
  · apply triple_storeCh
    rintro l σ ⟨rfl, hl⟩ -
    exact ⟨rfl, rfl, hl⟩
  refine Triple.seq (R := Skipped σ0) ?_ ?_
  · apply triple_readCh
    rintro l σ c rest ⟨hin, hw, hlen, hnum⟩ hc -
    exact ⟨by rw [← hin, hc], hw, hlen, hnum⟩
  · refine (Triple.loop ?_).mono ?_
    · apply triple_readCh
      rintro l σ c rest ⟨h, hq⟩ hc -
      refine ⟨?_, h.written, h.len, h.num⟩
      rw [h.blanks, skipBlanks, if_pos (by simpa using hq), hc]
    · rintro l σ ⟨h, hq⟩
      refine ⟨h, ?_⟩
      rw [h.blanks, skipBlanks, if_neg (by simpa using hq)]

/-- `*arg = num` stores the four bytes. -/
theorem triple_storeNum {P : InputVars → List UInt8 → List UInt8 → Prop} :
    Triple (streamMeaning own) (fun l σ => P l σ.input σ.written) (storeNum arg)
      fun l σ => P l σ.input σ.written ∧
        StoredAt own σ.mem arg [wordByte l.num 0, wordByte l.num 1, wordByte l.num 2,
          wordByte l.num 3] := by
  -- one more byte of the number each time
  let R : ℕ → InputVars → Stream → Prop := fun n l σ => P l σ.input σ.written ∧
    StoredAt own σ.mem arg ((List.range n).map (wordByte l.num))
  have hstep : ∀ n, Triple (streamMeaning own) (R n)
      (storeCh (fun _ => arg + n) fun l => wordByte l.num n) (R (n + 1)) := by
    intro n
    apply triple_storeCh
    rintro l σ ⟨hp, hbytes⟩ hown
    have hlen : arg + n = arg + ((List.range n).map (wordByte l.num)).length := by simp
    refine ⟨hp, ?_⟩
    rw [List.range_succ, List.map_append, hlen]
    exact hbytes.snoc (hlen ▸ hown) _
  have hall : Triple (streamMeaning own) (R 0) (storeNum arg) (R 4) :=
    .seq (.seq (hstep 0) (hstep 1)) (.seq (hstep 2) (hstep 3))
  intro l σ l' σ' hp hr
  exact hall l σ l' σ' ⟨hp, .nil⟩ hr

/-- The second half of `scan_dec` and `scan_hex`. -/
theorem triple_scanNum {digit : UInt8 → Bool} {base : UInt32} {value : UInt8 → UInt32}
    (hv : ∀ c, digit c = true → value c = hexVal c) :
    Triple (streamMeaning own) (Found σ0) (scanNumCode digit base value ch arg)
      fun l σ => (σ.written = σ0.written ∧
        (skipBlanks σ0.input >>= fun r => scanNumLoop digit base 0 r.1 r.2) =
          .ok (l.num, σ.input)) ∧
        StoredAt own σ.mem arg [wordByte l.num 0, wordByte l.num 1, wordByte l.num 2,
          wordByte l.num 3] := by
  refine Triple.seq ?_ (triple_storeNum (P := fun l input written => written = σ0.written ∧
        (skipBlanks σ0.input >>= fun r => scanNumLoop digit base 0 r.1 r.2) = .ok (l.num, input)))
  -- the value of `scanNumLoop` on what is left stays the same
  have hloop := Triple.loop (m := streamMeaning own) (q := fun l => digit l.ch)
    (P := fun l σ => σ.written = σ0.written ∧
      (skipBlanks σ0.input >>= fun r => scanNumLoop digit base 0 r.1 r.2) =
        scanNumLoop digit base l.num l.ch σ.input)
    (b := .seq (.assign fun l => { l with num := l.num * base + value l.ch })
      (readCh fun _ => ch)) ?_
  · intro l σ l' σ' h hr
    obtain ⟨⟨hw, hval⟩, hq⟩ := hloop l σ l' σ' ⟨h.written, by rw [h.found, ok_bind, h.num]⟩ hr
    refine ⟨hw, hval.trans ?_⟩
    cases hin : σ'.input with
    | nil => rw [scanNumLoop, if_neg (by simpa using hq)]
    | cons c rest => rw [scanNumLoop, if_neg (by simpa using hq)]
  · refine Triple.seq (R := fun l σ => σ.written = σ0.written ∧ ∃ num, digit l.ch = true ∧
      l.num = num * base + value l.ch ∧
      (skipBlanks σ0.input >>= fun r => scanNumLoop digit base 0 r.1 r.2) =
        scanNumLoop digit base num l.ch σ.input) ?_ ?_
    · apply Triple.assign
      rintro l σ ⟨⟨hw, hval⟩, hq⟩
      exact ⟨hw, l.num, hq, rfl, hval⟩
    · apply triple_readCh
      rintro l σ c rest ⟨hw, num, hq, hnum, hval⟩ hc -
      refine ⟨hw, hval.trans ?_⟩
      rw [hc, scanNumLoop, if_pos hq, hnum, hv _ hq]

/-- `scan_string`; its variable does not lie in the caller's buffer. -/
theorem triple_scanString : Triple (streamMeaning own) (fun _ σ => σ = σ0) (scanStringCode ch arg)
    fun _ σ => σ.written = σ0.written ∧ ∃ str, scanString σ0.input = .ok (str, σ.input) ∧
      ((∀ i < str.length, arg + i ≠ ch) → StoredAt own σ.mem arg (str ++ [0])) := by
  refine Triple.seq triple_scanStart ?_
  -- the characters stored so far go before those that `scanStringLoop` still finds
  have hloop := Triple.loop (m := streamMeaning own) (q := fun l => l.ch ≠ 10 ∧ l.ch ≠ 32)
    (P := fun l σ => σ.written = σ0.written ∧ ∃ str, l.len = str.length ∧
      scanString σ0.input = (scanStringLoop l.ch σ.input >>= fun r => .ok (str ++ r.1, r.2)) ∧
      ((∀ i < str.length, arg + i ≠ ch) → StoredAt own σ.mem arg str))
    (b := .seq (storeCh (fun l => arg + l.len) fun l => l.ch)
      (.seq (.assign fun l => { l with len := l.len + 1 }) (readCh fun _ => ch))) ?_
  · refine Triple.seq (R := fun l σ => σ.written = σ0.written ∧ ∃ str, l.len = str.length ∧
      scanString σ0.input = .ok (str, σ.input) ∧
        ((∀ i < str.length, arg + i ≠ ch) → StoredAt own σ.mem arg str)) ?_ ?_
    · intro l σ l' σ' h hr
      have hstart : scanString σ0.input =
          (scanStringLoop l.ch σ.input >>= fun r => .ok ([] ++ r.1, r.2)) := by
        rw [scanString, h.found, ok_bind]
        cases scanStringLoop l.ch σ.input with
        | error e => rfl
        | ok r => rfl
      obtain ⟨⟨hw, str, hlen, hval, hst⟩, hq⟩ :=
        hloop l σ l' σ' ⟨h.written, [], h.len, hstart, fun _ => .nil⟩ hr
      refine ⟨hw, str, hlen, ?_, hst⟩
      rw [hval]
      cases hin : σ'.input with
      | nil => rw [scanStringLoop, if_neg (by simpa using hq), ok_bind, List.append_nil]
      | cons c rest => rw [scanStringLoop, if_neg (by simpa using hq), ok_bind, List.append_nil]
    · apply triple_storeCh
      rintro l σ ⟨hw, str, hlen, hval, hst⟩ hown
      refine ⟨hw, str, hval, fun hsep => ?_⟩
      rw [hlen] at hown ⊢
      exact (hst hsep).snoc hown 0
  · refine Triple.seq (R := fun l σ => σ.written = σ0.written ∧ ∃ str, l.len = str.length ∧
      (l.ch ≠ 10 ∧ l.ch ≠ 32) ∧
      scanString σ0.input = (scanStringLoop l.ch σ.input >>= fun r => .ok (str ++ r.1, r.2)) ∧
      ((∀ i < str.length, arg + i ≠ ch) → StoredAt own σ.mem arg (str ++ [l.ch]))) ?_ ?_
    · apply triple_storeCh
      rintro l σ ⟨⟨hw, str, hlen, hval, hst⟩, hq⟩ hown
      refine ⟨hw, str, hlen, by simpa using hq, hval, fun hsep => ?_⟩
      rw [hlen] at hown ⊢
      exact (hst hsep).snoc hown _
    refine Triple.seq (R := fun l σ => σ.written = σ0.written ∧ ∃ str, l.len = str.length + 1 ∧
      (l.ch ≠ 10 ∧ l.ch ≠ 32) ∧
      scanString σ0.input = (scanStringLoop l.ch σ.input >>= fun r => .ok (str ++ r.1, r.2)) ∧
      ((∀ i < str.length, arg + i ≠ ch) → StoredAt own σ.mem arg (str ++ [l.ch]))) ?_ ?_
    · apply Triple.assign
      rintro l σ ⟨hw, str, hlen, hrest⟩
      exact ⟨hw, str, congrArg (· + 1) hlen, hrest⟩
    · apply triple_readCh
      rintro l σ c rest ⟨hw, str, hlen, hq, hval, hst⟩ hc -
      refine ⟨hw, str ++ [l.ch], by rw [hlen, List.length_append]; rfl, ?_, fun hsep => ?_⟩
      · rw [hval, hc, scanStringLoop, if_pos hq]
        cases scanStringLoop c rest with
        | error e => rfl
        | ok r => simp
      · refine (hst fun i hi => hsep i ?_).update hsep c
        rw [List.length_append]
        omega

/-- `gets`; the library's buffer and the caller's do not overlap. -/
theorem triple_gets : Triple (streamMeaning own) (fun _ σ => σ = σ0) (getsCode inbuf s)
    fun _ σ => σ.written = σ0.written ∧ ∃ line, σ0.input = line ++ 10 :: σ.input ∧ (10 : UInt8) ∉ line ∧
      ((∀ i < line.length, ∀ j ≤ line.length, s + i ≠ inbuf + j) →
        StoredAt own σ.mem s (line ++ [0])) := by
  -- the line so far, stored; `ch` is the character behind it
  let R : InputVars → Stream → Prop := fun l σ => σ.written = σ0.written ∧
    ∃ line, l.inlen = line.length ∧ σ0.input = line ++ l.ch :: σ.input ∧ (10 : UInt8) ∉ line ∧
      σ.mem (inbuf + l.inlen) = l.ch ∧
      ((∀ i < line.length, ∀ j ≤ line.length, s + i ≠ inbuf + j) → StoredAt own σ.mem s line)
  refine Triple.seq (R := fun l σ => σ = σ0 ∧ l.inlen = 0) ?_ ?_
  · exact Triple.assign fun l σ hσ => ⟨hσ, rfl⟩
  refine Triple.seq (R := R) ?_ ?_
  · apply triple_readCh
    rintro l σ c rest ⟨rfl, hlen⟩ hc -
    refine ⟨rfl, [], hlen, hc, List.not_mem_nil, ?_, fun _ => .nil⟩
    rw [hlen]
    exact Function.update_self ..
  refine Triple.seq (Triple.loop (P := R) ?_) ?_
  · let S : ℕ → InputVars → Stream → Prop := fun n l σ => σ.written = σ0.written ∧
      ∃ line, l.inlen = line.length + n ∧ σ0.input = line ++ l.ch :: σ.input ∧
        (10 : UInt8) ∉ line ∧ l.ch ≠ 10 ∧
        ((∀ i < line.length, ∀ j ≤ line.length, s + i ≠ inbuf + j) →
          StoredAt own σ.mem s (line ++ [l.ch]))
    refine Triple.seq (R := S 0) ?_ (Triple.seq (R := S 1) ?_ ?_)
    · refine Triple.seq (R := fun l σ => R l σ ∧ l.ch ≠ 10) ?_ ?_
      · apply triple_loadCh
        rintro l σ ⟨⟨hw, line, hlen, hin, h10, hch, hst⟩, hq⟩ -
        rw [hch]
        exact ⟨⟨hw, line, hlen, hin, h10, hch, hst⟩, by simpa using hq⟩
      · apply triple_storeCh
        rintro l σ ⟨⟨hw, line, hlen, hin, h10, -, hst⟩, hq⟩ hown
        refine ⟨hw, line, hlen, hin, h10, hq, fun hsep => ?_⟩
        rw [hlen] at hown ⊢
        exact (hst hsep).snoc hown _
    · apply Triple.assign
      rintro l σ ⟨hw, line, hlen, hrest⟩
      exact ⟨hw, line, congrArg (· + 1) hlen, hrest⟩
    · apply triple_readCh
      rintro l σ c rest ⟨hw, line, hlen, hin, h10, hq, hst⟩ hc -
      have hlen' : (line ++ [l.ch]).length = line.length + 1 := by rw [List.length_append]; rfl
      refine ⟨hw, line ++ [l.ch], hlen.trans hlen'.symm, ?_, ?_, Function.update_self .., ?_⟩
      · rw [hin, hc, List.append_assoc]
        rfl
      · rw [List.mem_append, List.mem_singleton]
        rintro (h | h)
        · exact h10 h
        · exact hq h.symm
      · intro hsep
        rw [hlen'] at hsep
        refine (hst fun i hi j hj => hsep i (by omega) j (by omega)).update ?_ c
        rw [hlen', hlen]
        exact fun i hi => hsep i hi _ (le_refl _)
  · apply triple_storeCh
    rintro l σ ⟨⟨hw, line, hlen, hin, h10, -, hst⟩, hq⟩ hown
    have hch : l.ch = 10 := by simpa using hq
    refine ⟨hw, line, by rw [hin, hch], h10, fun hsep => ?_⟩
    rw [hlen] at hown ⊢
    exact (hst hsep).snoc hown 0

/-! ### The calls -/

/-- A call of an input function, with the address of the caller's buffer or variable. -/
inductive InputCall
  | gets (s : ℕ)
  | getchar
  | scanCh (arg : ℕ)
  | scanString (arg : ℕ)
  | scanDec (arg : ℕ)
  | scanHex (arg : ℕ)

/-- Its code; `inbuf` is the address of the library's buffer, and `ch` that of the variable of the
`scan` functions. -/
def InputCall.code (inbuf ch : ℕ) : InputCall → Code userInterface InputVars
  | .gets s => getsCode inbuf s
  | .getchar => getcharCode inbuf
  | .scanCh arg => scanChCode ch arg
  | .scanString arg => scanStringCode ch arg
  | .scanDec arg => scanDecCode ch arg
  | .scanHex arg => scanHexCode ch arg

/-- The four bytes of a number. -/
def numBytes (num : UInt32) : List UInt8 :=
  [wordByte num 0, wordByte num 1, wordByte num 2, wordByte num 3]

/-- What a call has taken from the front of `input`, leaving `rest`, and where it is now; the buffers
must not overlap. -/
def InputCall.Delivers (own : ℕ → Bool) (inbuf ch : ℕ) (c : InputCall) (input rest : List UInt8)
    (mem : ℕ → UInt8) (l : InputVars) : Prop :=
  match c with
  | .gets s => ∃ line, input = line ++ 10 :: rest ∧ (10 : UInt8) ∉ line ∧
      ((∀ i < line.length, ∀ j ≤ line.length, s + i ≠ inbuf + j) → StoredAt own mem s (line ++ [0]))
  | .getchar => input = l.ch :: rest
  | .scanCh arg => ∃ c, skipBlanks input = .ok (c, rest) ∧ StoredAt own mem arg [c]
  | .scanString arg => ∃ str, OsLab.scanString input = .ok (str, rest) ∧
      ((∀ i < str.length, arg + i ≠ ch) → StoredAt own mem arg (str ++ [0]))
  | .scanDec arg => ∃ num, OsLab.scanDec input = .ok (num, rest) ∧
      StoredAt own mem arg (numBytes num)
  | .scanHex arg => ∃ num, OsLab.scanHex input = .ok (num, rest) ∧
      StoredAt own mem arg (numBytes num)

/-- A decimal digit has one value in both bases. -/
theorem isDec_value {c : UInt8} (h : isDec c = true) : c.toUInt32 - 48 = hexVal c := by
  rw [hexVal, if_pos h]

/-- **Alone on a stream** a call delivers, and writes nothing. -/
theorem InputCall.run_delivers (c : InputCall) (hr : (c.code inbuf ch).Run (streamMeaning own) l σ l' σ') :
    c.Delivers own inbuf ch σ.input σ'.input σ'.mem l' ∧ σ'.written = σ.written := by
  cases c with
  | gets s =>
    obtain ⟨hw, hline⟩ := triple_gets l σ l' σ' rfl hr
    exact ⟨hline, hw⟩
  | getchar =>
    have htriple : Triple (streamMeaning own) (fun _ σ0 => σ0 = σ) (getcharCode inbuf)
        fun l σ' => σ.input = l.ch :: σ'.input ∧ σ'.written = σ.written := by
      refine Triple.seq (R := fun _ σ0 => σ0 = σ) (Triple.assign fun l σ0 h => h) ?_
      apply triple_readCh
      rintro l σ0 c rest rfl hc -
      exact ⟨hc, rfl⟩
    exact htriple l σ l' σ' rfl hr
  | scanCh arg =>
    have htriple : Triple (streamMeaning own) (fun _ σ0 => σ0 = σ) (scanChCode ch arg)
        fun l σ' => (skipBlanks σ.input = .ok (l.ch, σ'.input) ∧ StoredAt own σ'.mem arg [l.ch]) ∧
          σ'.written = σ.written := by
      refine Triple.seq triple_scanStart ?_
      apply triple_storeCh
      intro l σ1 h hown
      exact ⟨⟨h.found, StoredAt.nil.snoc hown l.ch⟩, h.written⟩
    obtain ⟨hfound, hw⟩ := htriple l σ l' σ' rfl hr
    exact ⟨⟨l'.ch, hfound⟩, hw⟩
  | scanString arg =>
    obtain ⟨hw, hstr⟩ := triple_scanString l σ l' σ' rfl hr
    exact ⟨hstr, hw⟩
  | scanDec arg =>
    obtain ⟨⟨hw, hval⟩, hst⟩ :=
      (triple_scanStart.seq (triple_scanNum fun c => isDec_value)) l σ l' σ' rfl hr
    exact ⟨⟨l'.num, hval, hst⟩, hw⟩
  | scanHex arg =>
    obtain ⟨⟨hw, hval⟩, hst⟩ :=
      (triple_scanStart.seq (triple_scanNum fun c _ => rfl)) l σ l' σ' rfl hr
    exact ⟨⟨l'.num, hval, hst⟩, hw⟩

/-! ### On the kernel -/

/-- A string stays where it is, if the bytes of the program do. -/
theorem StoredAt.congr {mem mem' : ℕ → UInt8} {a : ℕ} {str : List UInt8}
    (h : StoredAt own mem a str) (hm : ∀ a, own a → mem a = mem' a) : StoredAt own mem' a str := by
  intro i hi
  obtain ⟨hown, hval⟩ := h i hi
  exact ⟨hown, (hm _ hown).symm.trans hval⟩

/-- Only the memory that the program uses matters. -/
theorem InputCall.Delivers.congr {c : InputCall} {input rest : List UInt8} {mem mem' : ℕ → UInt8}
    (h : c.Delivers own inbuf ch input rest mem l) (hm : ∀ a, own a → mem a = mem' a) :
    c.Delivers own inbuf ch input rest mem' l := by
  cases c with
  | gets s =>
    obtain ⟨line, hin, h10, hst⟩ := h
    exact ⟨line, hin, h10, fun hsep => (hst hsep).congr hm⟩
  | getchar => exact h
  | scanCh arg => exact h.imp fun c hc => ⟨hc.1, hc.2.congr hm⟩
  | scanString arg => exact h.imp fun str hstr => ⟨hstr.1, fun hsep => (hstr.2 hsep).congr hm⟩
  | scanDec arg => exact h.imp fun num hnum => ⟨hnum.1, hnum.2.congr hm⟩
  | scanHex arg => exact h.imp fun num hnum => ⟨hnum.1, hnum.2.congr hm⟩

/-- **The input functions on the kernel.** When the first process or its first child comes to the end of
a call, it has taken from the front of what was typed what the function takes from a list of
characters, and has it in its memory; the rest is still unread. Timer and keyboard interrupt the
function anywhere, and other processes run in between. -/
theorem input_delivered {c : InputCall} {img : Image} {kb k : Kernel} {es : List Event} {p : Node}
    {ts : List (Turn Event)} {final : Session userInterface InputVars Process}
    (hb : boot img = .ok kb) (h0 : Reaches step (fun k e => hasRoom k e) kb es k)
    (hw : k.waiting = none) (h12 : p = .pcb 1 ∨ p = .pcb 2) (halive : alive k p)
    (hown : ∀ a, own a → a < 2 ^ 32)
    (hr : Reaches (processSystem p).sessionStep (allowed (staysOnStream own) (leavesAlone p own))
      (.start (c.code inbuf ch) l ⟨k, []⟩) ts final) (hend : final.stack = []) :
    c.Delivers own inbuf ch
        (unread k ++ log (processSystem p).sessionStep (sessionFeeds keysTyped)
          (.start (c.code inbuf ch) l ⟨k, []⟩) ts)
        (unread final.state.kernel) (fun a => final.state.kernel.mem (phys p a)) final.vars ∧
      final.state.out = [] := by
  obtain ⟨-, mem, hmem, hrun⟩ := process_streams hb h0 hw h12 halive hown hr hend
  have hrun := hrun []
  simp only [List.append_nil] at hrun
  obtain ⟨hdel, hwritten⟩ := c.run_delivers hrun
  exact ⟨hdel.congr hmem, hwritten⟩

/-- `gets` gets a line whose newline comes in while it waits. -/
theorem input_delivered_gets : ∃ final : Session userInterface InputVars Process,
    (InputCall.gets 0x210000).Delivers inImage 0x220000 0x230000 [97, 10]
      (unread final.state.kernel) (fun a => final.state.kernel.mem (phys (.pcb 1) a)) final.vars ∧
    final.state.out = [] := by
  have hrun : (checkedFrom .blank hasRoom (.replicate 10 .timer)).any (fun k =>
      decide (k.waiting = none ∧ alive k (.pcb 1)) &&
      decide (unread k ++ log (processSystem (.pcb 1)).sessionStep (sessionFeeds keysTyped)
        (.start ((InputCall.gets 0x210000).code 0x220000 0x230000) ⟨0, 0, 0, 0⟩ ⟨k, []⟩)
        (.replicate 5 .own ++ [.env .timer, .env (.key 30)] ++ .replicate 11 .own ++
          [.env (.key 28), .env .timer] ++ .replicate 3 .own) = [97, 10]) &&
      (checkedRun (processSystem (.pcb 1)).sessionStep (fun c t => quietTurn inImage c t)
        (.start ((InputCall.gets 0x210000).code 0x220000 0x230000) ⟨0, 0, 0, 0⟩ ⟨k, []⟩)
        (.replicate 5 .own ++ [.env .timer, .env (.key 30)] ++ .replicate 11 .own ++
          [.env (.key 28), .env .timer] ++ .replicate 3 .own)).any fun s => s.stack.isEmpty) =
      true := by decide +kernel
  obtain ⟨k, hk, hrun⟩ := (Option.any_eq_true _ _).mp hrun
  obtain ⟨kb, hb, h0⟩ := reaches_of_checkedFrom hk
  simp only [Bool.and_eq_true, decide_eq_true_eq] at hrun
  obtain ⟨⟨⟨hw, halive⟩, hlog⟩, hsess⟩ := hrun
  obtain ⟨final, hs, hend⟩ := (Option.any_eq_true _ _).mp hsess
  have hr := (Reaches.of_checkedRun hs).mono fun c t => allowed_of_quietTurn (p := .pcb 1)
  have hdel := input_delivered hb h0 hw (.inl rfl) halive (fun a => lt_of_inImage) hr
    (List.isEmpty_iff.mp hend)
  rw [hlog] at hdel
  exact ⟨final, hdel⟩

end OsLab
