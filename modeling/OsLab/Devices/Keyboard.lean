import OsLab.Lib.Memory
import OsLab.Memory.Buffers
import OsLab.Devices.Console
import OsLab.Scheduler.Sound

/-!
# Keyboard input

`keyboardHandle` puts the characters typed into `BUF` at the free-running index `buf_in`, `read_aux`
on `stdin` takes them out at `buf_out`. Neither index ever goes back, and nothing compares `buf_in`
with the size of `BUF`.

* `typed` and `handedOut` are what is seen of a step: the character of a recognised key, and the
  bytes in the reader's buffer when a read of `stdin` completes.
* `Unread` ties the two indices to these logs: `BUF` up to `buf_in` is what was typed, and up to
  `buf_out` what was handed out.
* `delivered_of_room`: while no more than 1024 characters are typed and no read asks for so many
  that `buf_out + len` leaves an `int` (`hasRoom`), every read gets the next characters, none lost
  or repeated, and only once they have been typed.
* `buffer_overruns`: the character with number 1025 is written behind `BUF`.
-/

namespace OsLab

open OsLab.Lib

variable {k k' : Kernel} {Q : Queues} {e : Event} {es : List Event} {buf : ℕ} {len : ℤ}

/-! ### What is seen of a step -/

/-- The character of a recognised key. -/
def typed (_ : Kernel) (e : Event) (_ : Kernel) : List UInt8 :=
  match e with
  | .key scanCode => if pressKey scanCode ≠ 0 then [pressKey scanCode] else []
  | _ => []

/-- The buffer and length of the read of `stdin` that a step completes: the one that waited, or one
that did not have to. -/
def completed (k : Kernel) (e : Event) (k' : Kernel) : Option (ℕ × ℤ) :=
  if k'.waiting = none then
    match k.waiting, e with
    | some r, _ => some r
    | none, .sys (.read fd buf len) => if fd = stdin then some (userBuf buf k, len) else none
    | none, _ => none
  else none

/-- What is in that buffer then. -/
def handedOut (k : Kernel) (e : Event) (k' : Kernel) : List UInt8 :=
  match completed k e k' with
  | some r => loadBytes k'.mem r.1 r.2.toNat
  | none => []

/-- There is room in `BUF` for the character of this event, and `buf_out + len` is an `int`. The
address of a user buffer has 32 bits, and a length is not negative. -/
def hasRoom (k : Kernel) : Event → Bool
  | .key scanCode => pressKey scanCode = 0 ∨ k.bufIn < MAX_SIZE
  | .sys (.read fd buf len) =>
    fd = stdin → buf < 2 ^ 32 ∧ 0 ≤ len ∧ k.bufOut + len ≤ 2 ^ 31
  | _ => true

/-! ### The fields of the keyboard -/

/-- What the keyboard and the reads of `stdin` work on. -/
def keyState (k : Kernel) : (ℕ → UInt8) × ℤ × ℤ × Option (ℕ × ℤ) := (k.key, k.bufIn, k.bufOut, k.waiting)

/-- The events about the keyboard. -/
def Event.onKeys : Event → Bool
  | .key _ => true
  | .sys (.read fd _ _) => fd = stdin
  | _ => false

/-- Rescheduling touches nothing that a read needs. -/
theorem keyState_of_rescheduled (h : Rescheduled k k') : keyState k' = keyState k := by
  rw [h.rest]
  rfl

/-- Nor does a call on files. -/
theorem keyState_of_fileCall (h : FileCall k k') : keyState k' = keyState k := by
  rw [h.rest]
  rfl

/-- Nothing else touches them. -/
theorem keyState_step (h : Sound k Q) (hw : k.waiting = none) (he : e.onKeys = false)
    (hk : step k e = .ok k') : keyState k' = keyState k := by
  cases does_of_step h hk with
  | timer hr hres =>
    -- no read waits, so `resume` has nothing to do
    obtain rfl := Except.ok.inj ((resume_of_none (hr.waiting.trans hw)).symm.trans hres)
    exact keyState_of_rescheduled hr
  | key _ _ => cases he
  | exit _ hr => exact (keyState_of_rescheduled hr).trans rfl
  | sleep hr => exact keyState_of_rescheduled hr
  | semWait hr => exact (keyState_of_rescheduled hr).trans rfl
  | semPost hr => exact (keyState_of_rescheduled hr).trans rfl
  | readStdin _ => cases he
  | file _ hf => exact keyState_of_fileCall hf
  | _ => rfl

/-! ### The indices and the logs -/

/-- The characters typed and handed out so far, in `BUF`. -/
structure Unread (k : Kernel) (t g : List UInt8) : Prop where
  inIdx : k.bufIn = t.length
  outIdx : k.bufOut = g.length
  le : g.length ≤ t.length
  size : t.length ≤ MAX_SIZE
  all : slice k.key 0 t.length = t
  out : slice k.key 0 g.length = g

/-- A read of `stdin` that waits does so for characters not typed yet. -/
def Waits (k : Kernel) (t g : List UInt8) : Prop :=
  ∀ buf len, k.waiting = some (buf, len) →
    buf < 2 ^ 32 ∧ 0 ≤ len ∧ t.length < g.length + len ∧ g.length + len ≤ 2 ^ 31

variable {t g : List UInt8}

/-- The unread keys depend on the key buffer and its two ends only. -/
theorem Unread.congr (h : Unread k t g) (hs : keyState k' = keyState k) : Unread k' t g := by
  simp only [keyState, Prod.mk.injEq] at hs
  obtain ⟨hkey, hin, hout, -⟩ := hs
  exact ⟨hin ▸ h.inIdx, hout ▸ h.outIdx, h.le, h.size, hkey ▸ h.all, hkey ▸ h.out⟩

/-- The loop that copies out of `BUF` stays inside it. -/
theorem readKeys_eq (h0 : 0 ≤ k.bufOut) {n i : ℕ} (h : k.bufOut.toNat + i + n ≤ MAX_SIZE) :
    readKeys k n i = .ok (slice k.key (k.bufOut.toNat + i) n) := by
  induction n generalizing i with
  | zero => rfl
  | succ n ih =>
    have hle : k.bufOut.toNat + i + (n + 1) ≤ 1024 := h
    have hidx : i32 (i + k.bufOut) = k.bufOut.toNat + i := by
      rw [i32_eq_self (by omega) (by omega)]
      omega
    have hin : 0 ≤ i32 (i + k.bufOut) ∧ i32 (i + k.bufOut) < MAX_SIZE := by
      have hsize : MAX_SIZE = 1024 := rfl
      rw [hidx, hsize]
      constructor <;> omega
    have hrest : k.bufOut.toNat + (i + 1) + n ≤ 1024 := by omega
    rw [readKeys, if_pos hin, ih hrest, ok_bind, hidx, slice_cons]
    rfl

/-- **A round of `wait_for_keyboard`** ends the read as soon as enough characters are there. -/
theorem Unread.pollRead_eq (h : Unread k t g) (h0 : 0 ≤ len) (hmax : g.length + len ≤ 2 ^ 31) :
    pollRead buf len k =
      if t.length < g.length + len then
        .ok { k with intrNesting := true, waiting := some (buf, len) }
      else
        .ok { k with
          intrNesting := false
          waiting := none
          mem := storeBytes k.mem buf (slice k.key g.length len.toNat)
          bufOut := g.length + len } := by
  have hlen : i32 (len - 1) = len - 1 := i32_eq_self (by omega) (by omega)
  have hwait : i32 (k.bufOut + i32 (len - 1)) ≥ k.bufIn ↔ (t.length : ℤ) < g.length + len := by
    rw [hlen, h.outIdx, h.inIdx, i32_eq_self (by omega) (by omega)]
    omega
  unfold pollRead
  by_cases hlt : (t.length : ℤ) < g.length + len
  · rw [if_pos (hwait.mpr hlt), if_pos hlt]
  · rw [if_neg (mt hwait.mp hlt), if_neg hlt]
    have hsize : t.length ≤ 1024 := h.size
    have hto : k.bufOut.toNat = g.length := by rw [h.outIdx, Int.toNat_natCast]
    have hread : readKeys { k with intrNesting := false, waiting := none } len.toNat 0 =
        .ok (slice k.key g.length len.toNat) := by
      rw [readKeys_eq (by rw [h.outIdx]; omega)]
      · rw [hto]
        rfl
      · change k.bufOut.toNat + 0 + len.toNat ≤ 1024
        omega
    refine (congrArg (· >>= _) hread).trans ?_
    change Except.ok { k with
      intrNesting := false
      waiting := none
      mem := storeBytes k.mem buf (slice k.key g.length len.toNat)
      bufOut := i32 (k.bufOut + len) } = _
    rw [h.outIdx, i32_eq_self (by omega) (by omega)]

/-- After such a round the read waits for what is missing, or has got the next characters. -/
theorem Unread.polled (h : Unread k t g) (hb : buf < 2 ^ 32) (h0 : 0 ≤ len)
    (hmax : g.length + len ≤ 2 ^ 31) (hk : pollRead buf len k = .ok k') :
    (k'.waiting = some (buf, len) ∧ Unread k' t g ∧ Waits k' t g) ∨
      k'.waiting = none ∧ Unread k' t (g ++ loadBytes k'.mem buf len.toNat) := by
  rw [h.pollRead_eq h0 hmax] at hk
  split_ifs at hk with hlt
  · obtain rfl := Except.ok.inj hk
    left
    refine ⟨rfl, ⟨h.inIdx, h.outIdx, h.le, h.size, h.all, h.out⟩, ?_⟩
    intro buf' len' hw
    obtain ⟨rfl, rfl⟩ : buf = buf' ∧ len = len' := by simpa using hw
    exact ⟨hb, h0, hlt, hmax⟩
  · obtain rfl := Except.ok.inj hk
    right
    have hsize := h.size
    have hload : loadBytes (storeBytes k.mem buf (slice k.key g.length len.toNat)) buf len.toNat =
        slice k.key g.length len.toNat := by
      have hstored : loadBytes (storeBytes k.mem buf (slice k.key g.length len.toNat)) buf
          (slice k.key g.length len.toNat).length = _ :=
        loadBytes_storeBytes hb (by rw [length_slice]; omega)
      rwa [length_slice] at hstored
    refine ⟨rfl, ?_⟩
    rw [show loadBytes _ buf len.toNat = _ from hload]
    refine ⟨h.inIdx, ?_, ?_, h.size, h.all, ?_⟩
    · rw [List.length_append, length_slice]
      push_cast
      rw [Int.toNat_of_nonneg h0]
    · rw [List.length_append, length_slice]
      omega
    · rw [List.length_append, length_slice, slice_append, h.out, Nat.zero_add]

/-- **A key press** appends its character. -/
theorem Unread.key {scanCode : ℕ} (h : Unread k t g) (hk : keyboardHandle scanCode k = .ok k') :
    Unread k' (t ++ if pressKey scanCode ≠ 0 then [pressKey scanCode] else []) g := by
  simp only [keyboardHandle] at hk
  split_ifs at hk with hch hin
  · obtain ⟨sc, -, hk⟩ := bind_eq_ok.mp hk
    obtain rfl := Except.ok.inj hk
    have hto : k.bufIn.toNat = t.length := by rw [h.inIdx, Int.toNat_natCast]
    have hle := h.le
    rw [if_pos hch]
    rw [h.inIdx] at hin
    refine ⟨?_, h.outIdx, ?_, ?_, ?_, ?_⟩
    · change k.bufIn + 1 = _
      rw [List.length_append, List.length_singleton, h.inIdx]
      omega
    · rw [List.length_append]
      omega
    · rw [List.length_append, List.length_singleton]
      omega
    · rw [List.length_append, List.length_singleton, slice_succ, Nat.zero_add, hto,
        slice_update_of_le (by omega), h.all]
      exact congrArg (t ++ [·]) (Function.update_self ..)
    · rw [hto, slice_update_of_le (by omega), h.out]
  · obtain ⟨_, -, hk⟩ := bind_eq_ok.mp hk
    cases hk
  · obtain rfl := Except.ok.inj hk
    rw [if_neg hch, List.append_nil]
    exact h

/-! ### Steps and runs -/

/-- A read that waits hands out nothing. -/
theorem handedOut_of_waits (h : k'.waiting ≠ none) : handedOut k e k' = [] := by
  simp [handedOut, completed, h]

/-- Where no read ends, nothing is handed out. -/
theorem handedOut_of_none (h : completed k e k' = none) : handedOut k e k' = [] := by
  rw [handedOut, h]

/-- Without a read that waits there is nothing to say. -/
theorem waits_of_none (h : k.waiting = none) : Waits k t g := by
  intro buf len hx
  rw [h] at hx
  cases hx

/-- A round of `wait_for_keyboard`, and what the step it belongs to hands out. -/
theorem Unread.polled_handedOut (h : Unread k t g) (hb : buf < 2 ^ 32) (h0 : 0 ≤ len)
    (hmax : g.length + len ≤ 2 ^ 31) {k1 : Kernel} (hk : pollRead buf len k = .ok k')
    (hout : k'.waiting = none → handedOut k1 e k' = loadBytes k'.mem buf len.toNat) :
    Unread k' t (g ++ handedOut k1 e k') ∧ Waits k' t (g ++ handedOut k1 e k') := by
  rcases h.polled hb h0 hmax hk with ⟨hx, hu, hwaits⟩ | ⟨hx, hu⟩
  · rw [handedOut_of_waits (by rw [hx]; simp), List.append_nil]
    exact ⟨hu, hwaits⟩
  · rw [hout hx]
    exact ⟨hu, waits_of_none hx⟩

/-- The loop of `wait_for_keyboard` after an interrupt. -/
theorem unread_resume {k1 : Kernel} (h : Unread k1 t g) (hw : k1.waiting = k.waiting)
    (hwt : ∀ buf len, k.waiting = some (buf, len) →
      buf < 2 ^ 32 ∧ 0 ≤ len ∧ g.length + len ≤ 2 ^ 31)
    (he : ∀ c, e ≠ .sys c) (hk : resume k1 = .ok k') :
    Unread k' t (g ++ handedOut k e k') ∧ Waits k' t (g ++ handedOut k e k') := by
  unfold resume at hk
  cases hkw : k.waiting with
  | none =>
    rw [hw, hkw] at hk
    obtain rfl := Except.ok.inj hk
    have hcomp : completed k e k1 = none := by
      unfold completed
      rw [hkw]
      cases e with
      | sys c => exact absurd rfl (he c)
      | _ => simp
    rw [handedOut_of_none hcomp, List.append_nil]
    exact ⟨h, waits_of_none (hw.trans hkw)⟩
  | some r =>
    obtain ⟨buf, len⟩ := r
    rw [hw, hkw] at hk
    obtain ⟨hb, h0, hmax⟩ := hwt buf len hkw
    refine h.polled_handedOut hb h0 hmax hk fun hx => ?_
    simp [handedOut, completed, hx, hkw]

/-- An event that has nothing to do with the keyboard and arrives while nobody waits. -/
theorem unread_offKeys (hs : Sound k Q) (h : Unread k t g) (hw : k.waiting = none)
    (hkeys : e.onKeys = false) (hk : step k e = .ok k') :
    Unread k' (t ++ typed k e k') (g ++ handedOut k e k') ∧
      Waits k' (t ++ typed k e k') (g ++ handedOut k e k') := by
  have hst := keyState_step hs hw hkeys hk
  have hw' : k'.waiting = none := by
    simp only [keyState, Prod.mk.injEq] at hst
    rw [hst.2.2.2, hw]
  have ht : typed k e k' = [] := by
    cases e with
    | key _ => cases hkeys
    | _ => rfl
  have hcomp : completed k e k' = none := by
    unfold completed
    rw [hw, if_pos hw']
    cases e with
    | sys c =>
      cases c with
      | read fd buf len =>
        have hfd : fd ≠ stdin := by simpa [Event.onKeys] using hkeys
        simp [hfd]
      | _ => rfl
    | _ => rfl
  rw [ht, handedOut_of_none hcomp, List.append_nil, List.append_nil]
  exact ⟨h.congr hst, waits_of_none hw'⟩

/-- A call that reads the keyboard. -/
theorem unread_read {fd : ℤ} (h : Unread k t g) (hu : userMode k) (hfd : fd = stdin)
    (he : hasRoom k (.sys (.read fd buf len))) (hk : doSyscall k (.read fd buf len) = .ok k') :
    Unread k' t (g ++ handedOut k (.sys (.read fd buf len)) k') ∧
      Waits k' t (g ++ handedOut k (.sys (.read fd buf len)) k') := by
  obtain ⟨hb, h0, hmax⟩ := of_decide_eq_true he hfd
  rw [h.outIdx] at hmax
  have hbuf : userBuf buf k < 2 ^ 32 := by
    unfold userBuf
    split_ifs
    · exact Nat.mod_lt _ (by decide)
    · exact hb
  rw [doSyscall, readAux, if_pos hfd] at hk
  refine h.polled_handedOut hbuf h0 hmax hk fun hx => ?_
  simp [handedOut, completed, hx, hu.2, hfd]

/-- **One event** keeps the indices and the logs together. -/
theorem unread_step (hs : Sound k Q) (h : Unread k t g) (hwt : Waits k t g) (he : hasRoom k e)
    (hk : step k e = .ok k') :
    Unread k' (t ++ typed k e k') (g ++ handedOut k e k') ∧
      Waits k' (t ++ typed k e k') (g ++ handedOut k e k') := by
  have hwt' : ∀ buf len, k.waiting = some (buf, len) →
      buf < 2 ^ 32 ∧ 0 ≤ len ∧ g.length + len ≤ 2 ^ 31 := by
    intro buf len hx
    obtain ⟨hb, h0, -, hmax⟩ := hwt buf len hx
    exact ⟨hb, h0, hmax⟩
  cases e with
  | timer =>
    by_cases hw : k.waiting = none
    · exact unread_offKeys hs h hw rfl hk
    · obtain ⟨k1, h1, hk⟩ := bind_eq_ok.mp hk
      have hn : k.intrNesting = true := by rw [hs.nesting, Option.isSome_iff_ne_none]; exact hw
      obtain rfl : k = k1 := by simpa [timerHandle, hn] using h1
      have hres := unread_resume (e := .timer) h rfl hwt' (by simp) hk
      rwa [← List.append_nil t] at hres
  | key scanCode =>
    obtain ⟨k1, h1, hk⟩ := bind_eq_ok.mp hk
    have hw : k1.waiting = k.waiting := by rw [keyboardHandle_rest h1]
    exact unread_resume (h.key h1) hw hwt' (by simp) hk
  | store a b =>
    have hu : userMode k := by
      by_contra hu
      rw [step, if_neg hu] at hk
      cases hk
    exact unread_offKeys hs h hu.2 rfl hk
  | sys c =>
    have hu := userMode_of_call hk
    by_cases hkeys : Event.onKeys (.sys c) = false
    · exact unread_offKeys hs h hu.2 hkeys hk
    · cases c with
      | read fd buf len =>
        have hfd : fd = stdin := by simpa [Event.onKeys] using hkeys
        rw [step, if_pos hu] at hk
        rw [show typed k (.sys (.read fd buf len)) k' = [] from rfl, List.append_nil]
        exact unread_read h hu hfd he hk
      | _ => exact absurd rfl hkeys

/-- After start-up nothing has been typed. -/
theorem unread_boot {img : Image} (hb : boot img = .ok k) : Unread k [] [] ∧ Waits k [] [] := by
  obtain ⟨-, nx, rfl⟩ := placed_boot hb
  refine ⟨⟨rfl, rfl, Nat.le_refl _, Nat.zero_le _, rfl, rfl⟩, ?_⟩
  intro buf len hw
  cases hw

/-- Over a run the logs stay together with the indices. -/
theorem unread_run {img : Image} {k0 : Kernel} (hb : boot img = .ok k0)
    (hr : Reaches step (fun k e => hasRoom k e) k0 es k) :
    (∃ Q, Sound k Q) ∧ Unread k (log step typed k0 es) (log step handedOut k0 es) ∧
      Waits k (log step typed k0 es) (log step handedOut k0 es) := by
  refine hr.invariant (P := fun es k => (∃ Q, Sound k Q) ∧
    Unread k (log step typed k0 es) (log step handedOut k0 es) ∧
      Waits k (log step typed k0 es) (log step handedOut k0 es)) ?_ ?_
  · exact ⟨⟨_, sound_boot hb⟩, unread_boot hb⟩
  · rintro es k k' e hr ⟨⟨Q, hs⟩, hun, hwt⟩ he hk
    rw [log_snoc hr.run_eq hk, log_snoc hr.run_eq hk]
    exact ⟨⟨_, (sound_step hs hk).1⟩, unread_step hs hun hwt he hk⟩

/-! ### Every index into `BUF` -/

/-- A round of `wait_for_keyboard` does not fail. -/
theorem Unread.poll_ok (h : Unread k t g) (h0 : 0 ≤ len) (hmax : g.length + len ≤ 2 ^ 31) :
    ∃ k', pollRead buf len k = .ok k' := by
  rw [h.pollRead_eq h0 hmax]
  split_ifs
  · exact ⟨_, rfl⟩
  · exact ⟨_, rfl⟩

/-- An interrupt lets a waiting read go on, whatever has been typed. -/
theorem Unread.resume_ok (h : Unread k t g)
    (hwt : ∀ buf len, k.waiting = some (buf, len) → 0 ≤ len ∧ g.length + len ≤ 2 ^ 31) :
    ∃ k', resume k = .ok k' := by
  unfold resume
  cases hw : k.waiting with
  | none => exact ⟨_, rfl⟩
  | some r =>
    obtain ⟨h0, hmax⟩ := hwt r.1 r.2 hw
    exact h.poll_ok h0 hmax

/-- No event whose handler uses `BUF` leaves it. -/
theorem Unread.inside (hs : Sound k Q) (h : Unread k t g) (hwt : Waits k t g) (he : hasRoom k e)
    (hev : e = .timer ∨ e.onKeys) : step k e ≠ .error (.wild .keyBuffer) := by
  have hres : ∀ k1 t1, Unread k1 t1 g → k1.waiting = k.waiting → ∃ k', resume k1 = .ok k' := by
    intro k1 t1 h1 hw
    refine h1.resume_ok fun buf len hx => ?_
    obtain ⟨-, h0, -, hmax⟩ := hwt buf len (hw ▸ hx)
    exact ⟨h0, hmax⟩
  intro hx
  cases e with
  | timer =>
    by_cases hn : k.intrNesting = true
    · obtain ⟨k', hk'⟩ := hres k t h rfl
      have hstep : step k .timer = .ok k' := by
        rw [step, timerHandle, if_pos hn, ok_bind, hk']
      rw [hstep] at hx
      cases hx
    · have hn : k.intrNesting = false := by simpa using hn
      have hw : k.waiting = none := by simpa [hn] using hs.nesting.symm
      obtain ⟨k1, h1, -, -, hr, -⟩ := timerHandle_placed hs.placed hn
      have hstep : step k .timer = .ok k1 := by
        rw [step, h1, ok_bind, resume_of_none (hr.waiting.trans hw)]
      rw [hstep] at hx
      cases hx
  | key scanCode =>
    cases h1 : keyboardHandle scanCode k with
    | ok k1 =>
      obtain ⟨k', hk'⟩ := hres k1 _ (h.key h1) (by rw [keyboardHandle_rest h1])
      rw [step, h1, ok_bind, hk'] at hx
      cases hx
    | error x =>
      rw [step, h1, error_bind] at hx
      obtain rfl := Except.error.inj hx
      simp only [keyboardHandle] at h1
      split_ifs at h1 with hch hin
      · cases hsc : screenPut (pressKey scanCode) k.screen with
        | ok s =>
          rw [hsc] at h1
          cases h1
        | error y =>
          rw [hsc] at h1
          obtain rfl := Except.error.inj h1
          cases screenPut_error hsc
      · have hroom : k.bufIn < MAX_SIZE := (of_decide_eq_true he).resolve_left hch
        exact hin ⟨by rw [h.inIdx]; omega, hroom⟩
  | store a b => simp [Event.onKeys] at hev
  | sys c =>
    cases c with
    | read fd buf len =>
      have hfd : fd = stdin := by simpa [Event.onKeys] using hev
      obtain ⟨-, h0, hmax⟩ := of_decide_eq_true he hfd
      rw [h.outIdx] at hmax
      rw [step] at hx
      split_ifs at hx
      · obtain ⟨k', hk'⟩ : ∃ k', pollRead (userBuf buf k) len k = .ok k' := h.poll_ok h0 hmax
        rw [doSyscall, readAux, if_pos hfd, hk'] at hx
        cases hx
      · cases hx
    | _ => simp [Event.onKeys] at hev

/-- A loop that copies more characters than `BUF` holds leaves it. -/
theorem readKeys_error (h0 : 0 ≤ k.bufOut) {n i : ℕ} (hi : k.bufOut.toNat + i ≤ MAX_SIZE)
    (h : MAX_SIZE < k.bufOut.toNat + i + n) : readKeys k n i = .error (.wild .keyBuffer) := by
  have hsize : MAX_SIZE = 1024 := rfl
  rw [hsize] at hi h
  induction n generalizing i with
  | zero => omega
  | succ n ih =>
    have hidx : i32 (i + k.bufOut) = k.bufOut.toNat + i := by
      rw [i32_eq_self (by omega) (by omega)]
      omega
    rw [readKeys, hidx, hsize]
    by_cases hlt : k.bufOut.toNat + i < 1024
    · rw [if_pos (by omega), ih (by omega) (by omega), error_bind]
    · rw [if_neg (by omega)]

/-- The key presses, and the reads of `stdin` that a process can make. -/
def keyEvent (k : Kernel) : Event → Prop
  | .key _ => True
  | .sys (.read fd buf len) => fd = stdin ∧ userMode k ∧ buf < 2 ^ 32 ∧ 0 ≤ len ∧ len < 2 ^ 31
  | _ => False

/-- **Without room** the handler stops at an access outside its objects. -/
theorem Unread.overruns (h : Unread k t g) (hev : keyEvent k e) (he : ¬hasRoom k e) :
    ∃ o, step k e = .error (.wild o) := by
  have hin := h.inIdx
  have hout := h.outIdx
  have hle := h.le
  have hsize : t.length ≤ 1024 := h.size
  cases e with
  | key scanCode =>
    have hno : ¬(pressKey scanCode = 0 ∨ k.bufIn < MAX_SIZE) := fun hx => he (decide_eq_true hx)
    obtain ⟨hch, hfull⟩ := not_or.mp hno
    rw [step, keyboardHandle, if_pos hch]
    cases hsc : screenPut (pressKey scanCode) k.screen with
    | ok s =>
      rw [ok_bind, if_neg fun hx => hfull hx.2]
      exact ⟨_, rfl⟩
    | error x =>
      obtain rfl := screenPut_error hsc
      exact ⟨_, rfl⟩
  | sys c =>
    cases c with
    | read fd buf len =>
      obtain ⟨hfd, hu, hb, h0, hlen⟩ := hev
      have hbig : 2 ^ 31 < k.bufOut + len := by
        by_contra hx
        exact he (decide_eq_true fun _ => ⟨hb, h0, by omega⟩)
      have hends : ¬i32 (k.bufOut + i32 (len - 1)) ≥ k.bufIn := by
        unfold i32
        omega
      refine ⟨.keyBuffer, ?_⟩
      rw [step, if_pos hu, doSyscall, readAux, if_pos hfd, pollRead, if_neg hends]
      have hread := readKeys_error (k := { k with intrNesting := false, waiting := none })
        (n := len.toNat) (i := 0) (by exact (by omega : 0 ≤ k.bufOut))
        (by exact (by omega : k.bufOut.toNat + 0 ≤ 1024))
        (by exact (by omega : 1024 < k.bufOut.toNat + 0 + len.toNat))
      exact congrArg (· >>= _) hread
    | _ => exact hev.elim
  | _ => exact hev.elim

/-! ### Delivery -/

/-- What the reads of `stdin` have got in a run from `k0` to `k`. -/
structure Delivered (k0 : Kernel) (es : List Event) (k : Kernel) : Prop where
  /-- The characters handed out are the first ones typed, in order. -/
  inOrder : log step handedOut k0 es <+: log step typed k0 es
  /-- A read completes only once its characters have been typed and not handed out. -/
  enough : ∀ e k' r, hasRoom k e → step k e = .ok k' → completed k e k' = some r →
    (log step handedOut k0 es).length + r.2 ≤ (log step typed k0 (es ++ [e])).length
  /-- No index into `BUF` is out of range. -/
  bounded : ∀ e, hasRoom k e → (e = .timer ∨ e.onKeys) → step k e ≠ .error (.wild .keyBuffer)

/-- **Delivery**: in a run in which `BUF` has room for every character typed, and no read makes
`buf_out + len` overflow, the input is delivered once and in order. An event without room ends the
run. -/
theorem delivered_of_room {img : Image} {k0 : Kernel} (hb : boot img = .ok k0)
    (hr : Reaches step (fun k e => hasRoom k e) k0 es k) :
    Delivered k0 es k ∧ ∀ e, keyEvent k e → ¬hasRoom k e → ∃ o, step k e = .error (.wild o) := by
  obtain ⟨⟨Q, hs⟩, hun, hwt⟩ := unread_run hb hr
  refine ⟨⟨?_, ?_, ?_⟩, fun e hev he => hun.overruns hev he⟩
  · have hpre := slice_prefix (f := k.key) (i := 0) hun.le
    rwa [hun.out, hun.all] at hpre
  · intro e k' r he hk hr'
    obtain ⟨hun', -⟩ := unread_step hs hun hwt he hk
    have hle := hun'.le
    have hlen : (handedOut k e k').length = r.2.toNat := by
      rw [handedOut, hr']
      simp [loadBytes]
    rw [List.length_append, hlen, ← log_snoc hr.run_eq hk] at hle
    omega
  · intro e he hev
    exact hun.inside hs hwt he hev

/-- A read that waits for two characters gets the two that were typed first. -/
theorem delivered_of_room_twoKeys : ∃ k0 k, boot .blank = .ok k0 ∧
    (Delivered k0 (.replicate 10 .timer ++
        [.key 30, .sys (.read 0 0x200100 2), .timer, .key 48, .key 46]) k ∧
      ∀ e, keyEvent k e → ¬hasRoom k e → ∃ o, step k e = .error (.wild o)) ∧
    log step handedOut k0 (.replicate 10 .timer ++
      [.key 30, .sys (.read 0 0x200100 2), .timer, .key 48, .key 46]) = [97, 98] := by
  obtain ⟨k, hk⟩ := Option.isSome_iff_exists.mp (show (checkedFrom .blank hasRoom
    (.replicate 10 .timer ++
      [.key 30, .sys (.read 0 0x200100 2), .timer, .key 48, .key 46])).isSome by decide +kernel)
  obtain ⟨k0, hb, hr⟩ := reaches_of_checkedFrom hk
  refine ⟨k0, k, hb, delivered_of_room hb hr, ?_⟩
  have hlog : okAnd (boot .blank) (fun k0 => log step handedOut k0 (.replicate 10 .timer ++
      [.key 30, .sys (.read 0 0x200100 2), .timer, .key 48, .key 46]) = [97, 98]) := by decide +kernel
  obtain ⟨k1, h1, hlog⟩ := okAnd_eq_true.mp hlog
  obtain rfl := Except.ok.inj (h1.symm.trans hb)
  exact of_decide_eq_true hlog

/-- **The buffer overruns** at the character with number 1025. -/
theorem buffer_overruns :
    ¬∀ (img : Image) (es : List Event) (k0 k : Kernel), boot img = .ok k0 → run step k0 es = .ok k →
      (∀ e ∈ es, e.onKeys) → ∀ e, keyEvent k e → step k e ≠ .error (.wild .keyBuffer) := by
  intro hall
  obtain ⟨k0, hb, h0⟩ := okAnd_eq_true.mp (show okAnd (boot .blank) (fun k0 =>
    okAnd (run step k0 (.replicate 1024 (.key 30))) fun k =>
      match step k (.key 30) with
      | .error x => x = .wild .keyBuffer
      | .ok _ => false) = true by decide +kernel)
  obtain ⟨k, hr, h⟩ := okAnd_eq_true.mp h0
  refine hall .blank _ k0 k hb hr ?_ (.key 30) trivial ?_
  · intro e he
    rw [List.eq_of_mem_replicate he]
    rfl
  split at h
  · next x hx => rw [hx, of_decide_eq_true h]
  · cases h

end OsLab
