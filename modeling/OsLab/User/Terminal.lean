import OsLab.User.Processes

/-!
# Terminal programs on the kernel

Why a process that talks to the terminal need not know what goes on between its steps.

* `Attached`: what the proof keeps about the kernel. The keyboard's indices belong to the logs of what
  was typed and handed out, and the process's own memory is as its program believes.
* `Attached.poll`, `Attached.load`, `Attached.store`, `Attached.write`: the operations. A read that waits
  has done nothing yet; it is done by the interrupt that ends it (`Attached.wait`).
* `Attached.interrupt`, `Attached.others`: what comes in between.
* `terminal_simulates` puts these together, and **`process_streams`** is the rule of `Lib.Sessions` for
  every state that the kernel reaches from start-up.
-/

namespace OsLab

open OsLab.Lib

variable {p : Node} {own : ℕ → Bool} {k k' : Kernel} {Q : Queues} {t g : List UInt8} {a : ℕ} {b : UInt8}
  {mem : ℕ → UInt8} {s s' : Process} {e : Event} {t0 seen : List UInt8}

/-! ### The relation -/

/-- Process `p` is alive, the keyboard's indices go with what was typed (`t`) and handed out (`g`), and
the memory of `p` is `mem` where its program looks. -/
structure Attached (p : Node) (own : ℕ → Bool) (k : Kernel) (mem : ℕ → UInt8) (t g : List UInt8)
    (Q : Queues) : Prop where
  sound : Sound k Q
  based : Based k Q
  alive : p ∈ procs ∧ p ∉ Q .free
  keys : Unread k t g
  memory : ∀ a, own a → mem a = k.mem (phys p a)

/-- The process waits inside a read of one character to address `a`. -/
structure Reading (p : Node) (a : ℕ) (k : Kernel) : Prop where
  current : k.current = p
  waiting : k.waiting = some (phys p a, 1)
  number : k.tf p .eax = wordOf 3

/-- The kernel under a process that does not wait, or waits inside the read `pend`, and the machine
that a terminal program believes to run on, by the characters that are still to be typed. `t0` was
typed before the program has started, and `seen` since. -/
def Terminal (p : Node) (own : ℕ → Bool) (t0 seen : List UInt8) (pend : Option UserOp) (s : Process)
    (abs : List UInt8 → Stream) : Prop :=
  ∃ Q t g mem, t = t0 ++ seen ∧ Attached p own s.kernel mem t g Q ∧
    (abs = fun future => ⟨mem, t.drop g.length ++ future, s.out⟩) ∧
    match pend with
    | none => s.kernel.waiting = none
    | some o => ∃ a, o = .sys (.read stdin a 1) ∧ own a ∧ Reading p a s.kernel

/-- An event of the environment that leaves the program alone: there is room for the characters
typed, and the other processes neither read the keyboard nor change the memory of the program. -/
def leavesAlone (p : Node) (own : ℕ → Bool) (s : Process) (e : Event) : Prop :=
  hasRoom s.kernel e ∧ (e.isInterrupt = false → e.onKeys = false ∧
    ∀ k', step s.kernel e = .ok k' → ∀ a, own a → k'.mem (phys p a) = s.kernel.mem (phys p a))

/-- The operations of the program are those of a terminal program. -/
def staysOnStream (own : ℕ → Bool) (_ : Process) (o : UserOp) : Prop := UserOp.onStream own o

/-- What the environment brings: the characters typed. -/
def keysTyped (s : Process) (e : Event) (s' : Process) : List UInt8 := typed s.kernel e s'.kernel

/-! ### What keeps a process attached -/

/-- A step that does not end the process; what it types and hands out goes to the logs. -/
theorem Attached.after {t' g' : List UInt8} {mem' : ℕ → UInt8} (h : Attached p own k mem t g Q)
    (hk : step k e = .ok k') (hexit : k.current = p → e ≠ .sys .exit) (hkeys : Unread k' t' g')
    (hmem : ∀ a, own a → mem' a = k'.mem (phys p a)) :
    Attached p own k' mem' t' g' (stepQueues k Q e) :=
  ⟨(sound_step h.sound hk).1, based_step h.sound h.based hk, alive_step h.alive hexit, hkeys, hmem⟩

/-- The number of a call in `eax`. -/
theorem Attached.setEax (h : Attached p own k mem t g Q) (n : ℤ) :
    Attached p own (k.setEax n) mem t g Q := by
  have honly : OnlyKmem k (k.setEax n) := rfl
  refine ⟨h.sound.kmem honly, ?_, h.alive, h.keys.congr rfl, h.memory⟩
  intro q hq hfree
  have htf : (k.setEax n).tf q .ds = k.tf q .ds := by
    apply setEax_kmem
    rintro ⟨-, ho⟩
    exact absurd ho (by decide)
  rw [htf]
  exact h.based q hq hfree

/-- The number stays there, unless the handler stores something else. -/
theorem setEax_eax (k : Kernel) (n : ℤ) : (k.setEax n).tf k.current .eax = wordOf n := by
  simp [Kernel.tf]

/-! ### The read -/

/-- A round of `wait_for_keyboard` for process `p`. -/
theorem Attached.poll (h : Attached p own k mem t g Q) (ht : t = t0 ++ seen) (hown : ∀ a, own a → a < 2 ^ 32)
    (ha : own a) (hc : k.current = p) (heax : k.tf p .eax = wordOf 3)
    (hk : pollRead (phys p a) 1 k = .ok k') (out : List UInt8) :
    Settles (processSystem p) (streamMeaning own) (Terminal p own t0 seen) (.sys (.read stdin a 1))
      ⟨k', out⟩ fun future => ⟨mem, t.drop g.length ++ future, out⟩ := by
  have hrest := (pollRead_polled hk).rest
  have hs : Sound k' Q := by
    refine h.sound.polled (fun hi => ?_) (pollRead_polled hk)
    exact idle_not_mem_procs (hi ▸ hc ▸ h.alive.1)
  have hbased : Based k' Q := by
    intro q hq hfree
    rw [hrest]
    exact h.based q hq hfree
  have hcur : k'.current = p := by rw [hrest, ← hc]
  have hnum : k'.tf p .eax = wordOf 3 := by rw [hrest, ← heax]; rfl
  rcases h.keys.poll_one hk with ⟨hnil, hk'⟩ | ⟨c, rest, hcons, hdrop, hkeys, hk'⟩
  · have hw : k'.waiting = some (phys p a, 1) := by rw [hk']
    constructor
    · intro r hr
      simp [processSystem, hw] at hr
    · intro _
      refine ⟨Q, t, g, mem, ht, ⟨hs, hbased, h.alive, ?_, ?_⟩, rfl, a, rfl, ha, hcur, hw, hnum⟩
      · rw [hk']
        exact ⟨h.keys.inIdx, h.keys.outIdx, h.keys.le, h.keys.size, h.keys.all, h.keys.out⟩
      · intro x hx
        rw [h.memory x hx, hk']
  · have hw : k'.waiting = none := by rw [hk']
    constructor
    · intro r hr
      have hres : (processSystem p).result (.sys (.read stdin a 1)) ⟨k', out⟩ =
          some (wordOf 3) := (if_pos hw).trans (congrArg some hnum)
      obtain rfl := Option.some.inj (hres.symm.trans hr)
      refine ⟨fun future => ⟨Function.update mem a c, rest ++ future, out⟩, ?_, Q, t, g ++ [c],
        Function.update mem a c, ht, ⟨hs, hbased, h.alive, hkeys, ?_⟩, ?_, hw⟩
      · intro future
        have hon : UserOp.onStream own (.sys (.read stdin a 1)) = true := by
          simpa [UserOp.onStream] using ha
        rw [streamMeaning_eq hon, hcons]
        rfl
      · intro x hx
        rw [hk']
        by_cases hxa : x = a
        · subst hxa
          simp
        · have hne : phys p x ≠ phys p a := fun hp => hxa (phys_inj (hown x hx) (hown a ha) hp)
          rw [Function.update_of_ne hxa, h.memory x hx]
          exact (Function.update_of_ne hne ..).symm
      · rw [hdrop]
    · intro hr
      simp [processSystem, hw] at hr

/-! ### The operations of the program -/

/-- A load. -/
theorem Attached.load {out : List UInt8} (h : Attached p own k mem t g Q) (ht : t = t0 ++ seen)
    (hw : k.waiting = none) (ha : own a) :
    Settles (processSystem p) (streamMeaning own) (Terminal p own t0 seen) (.load a) ⟨k, out⟩
      fun future => ⟨mem, t.drop g.length ++ future, out⟩ := by
  have hres : (processSystem p).result (.load a) ⟨k, out⟩ = some (mem a) := by
    rw [h.memory a ha, ← dataAddr_eq_phys h.based h.alive a]
    rfl
  constructor
  · intro r hr
    obtain rfl := Option.some.inj (hres.symm.trans hr)
    exact ⟨_, fun future => streamMeaning_eq (o := .load a) ha _, Q, t, g, mem, ht, h, rfl, hw⟩
  · intro hr
    cases hres.symm.trans hr

/-- A store. -/
theorem Attached.store {out : List UInt8} (h : Attached p own k mem t g Q) (ht : t = t0 ++ seen)
    (hown : ∀ a, own a → a < 2 ^ 32) (ha : own a) (hc : k.current = p)
    (hk : step k (.store a b) = .ok k') :
    Settles (processSystem p) (streamMeaning own) (Terminal p own t0 seen) (.store a b) ⟨k', out⟩
      fun future => ⟨mem, t.drop g.length ++ future, out⟩ := by
  have hu : userMode k := by
    by_contra hu
    rw [step, if_neg hu] at hk
    cases hk
  have hk' : k' = userStore a b k := by
    rw [step, if_pos hu] at hk
    exact (Except.ok.inj hk).symm
  have hatt : Attached p own k' (Function.update mem a b) t g (stepQueues k Q (.store a b)) := by
    refine h.after hk (fun _ => by simp) ?_ ?_
    · rw [hk']
      exact h.keys.congr rfl
    · intro x hx
      have hmem : k'.mem = Function.update k.mem (phys p a) b := by
        rw [hk', ← dataAddr_eq_phys h.based h.alive a, ← hc]
        rfl
      rw [hmem]
      by_cases hxa : x = a
      · subst hxa
        simp
      · have hne : phys p x ≠ phys p a := fun hp => hxa (phys_inj (hown x hx) (hown a ha) hp)
        rw [Function.update_of_ne hxa, Function.update_of_ne hne, h.memory x hx]
  have hw : k'.waiting = none := by rw [hk']; exact hu.2
  constructor
  · intro r hr
    obtain rfl := Option.some.inj hr
    exact ⟨fun future => ⟨Function.update mem a b, t.drop g.length ++ future, out⟩,
      fun future => streamMeaning_eq (o := .store a b) ha _, _, t, g, _, ht, hatt, rfl, hw⟩
  · intro hr
    cases hr

/-- The text of a write. -/
theorem Attached.loadBytes_eq (h : Attached p own k mem t g Q) {n : ℕ}
    (hn : ∀ i < n, own (a + i)) :
    loadBytes k.mem (phys p a) n = (List.range n).map fun i => mem (a + i) := by
  apply List.map_congr_left
  intro i hi
  rw [phys_add, h.memory _ (hn i (List.mem_range.mp hi))]

/-- A write to `stdout`. -/
theorem Attached.write {out : List UInt8} {len : ℤ} (h : Attached p own k mem t g Q)
    (ht : t = t0 ++ seen)
    (h12 : p = .pcb 1 ∨ p = .pcb 2) (hown : ∀ a, own a → a < 2 ^ 32) (hlen : 0 ≤ len)
    (hn : ∀ i < len.toNat, own (a + i)) (hc : k.current = p)
    (hk : step (k.setEax 4) (.sys (.write stdout a len)) = .ok k') :
    Settles (processSystem p) (streamMeaning own) (Terminal p own t0 seen) (.sys (.write stdout a len))
      ⟨k', out ++ printed (.write stdout a len) k⟩
      fun future => ⟨mem, t.drop g.length ++ future, out⟩ := by
  have hu := userMode_of_call hk
  have hk' : ∃ sc, k' = { k.setEax 4 with screen := sc } := by
    rw [step, if_pos hu, doSyscall, writeAux, if_pos rfl] at hk
    obtain ⟨sc, -, hk⟩ := bind_eq_ok.mp hk
    exact ⟨sc, (Except.ok.inj hk).symm⟩
  obtain ⟨sc, hk'⟩ := hk'
  have hatt : Attached p own k' mem t g (stepQueues (k.setEax 4) Q (.sys (.write stdout a len))) := by
    refine (h.setEax 4).after hk (fun _ => by simp) ?_ ?_
    · rw [hk']
      exact h.keys.congr rfl
    · intro x hx
      rw [hk']
      exact h.memory x hx
  have hw : k'.waiting = none := by rw [hk']; exact hu.2
  have hnum : k'.tf p .eax = wordOf 4 := by
    rw [hk', ← hc]
    exact setEax_eax k 4
  have htext : printed (.write stdout a len) k =
      (List.range len.toNat).map fun i => mem (a + i) := by
    rw [printed, if_pos rfl]
    rcases Nat.eq_zero_or_pos len.toNat with h0 | hpos
    · rw [h0]
      rfl
    · rw [userBuf_eq_phys h.sound h.alive h12 hc (hown a (hn 0 hpos)), h.loadBytes_eq hn]
  have hres : (processSystem p).result (.sys (.write stdout a len))
      ⟨k', out ++ printed (.write stdout a len) k⟩ = some (wordOf 4) :=
    (if_pos hw).trans (congrArg some hnum)
  constructor
  · intro r hr
    obtain rfl := Option.some.inj (hres.symm.trans hr)
    refine ⟨fun future => ⟨mem, t.drop g.length ++ future,
      out ++ printed (.write stdout a len) k⟩, fun future => ?_, _, t, g, mem, ht, hatt, rfl, hw⟩
    have hon : UserOp.onStream own (.sys (.write stdout a len)) = true := by
      simp only [UserOp.onStream, decide_eq_true_eq]
      exact ⟨trivial, hlen, hn⟩
    rw [streamMeaning_eq hon, htext]
    rfl
  · intro hr
    cases hres.symm.trans hr

/-! ### The environment -/

/-- The keyboard's handler. -/
theorem Attached.keyboard {scanCode : ℕ} (h : Attached p own k mem t g Q)
    (hk : keyboardHandle scanCode k = .ok k') :
    Attached p own k' mem (t ++ typed k (.key scanCode) k') g Q := by
  have hrest := keyboardHandle_rest hk
  refine ⟨h.sound.keyboard hk, ?_, h.alive, h.keys.key hk, ?_⟩
  · intro q hq hfree
    rw [hrest]
    exact h.based q hq hfree
  · intro a ha
    rw [hrest]
    exact h.memory a ha

/-- Interrupts, while the process does not wait. -/
theorem Attached.interrupt (h : Attached p own k mem t g Q) (hw : k.waiting = none)
    (he : e.isInterrupt) (hk : step k e = .ok k') :
    ∃ Q', Attached p own k' mem (t ++ typed k e k') g Q' ∧ k'.waiting = none := by
  cases e with
  | timer =>
    have hks := keyState_step h.sound hw rfl hk
    obtain ⟨k1, h1, hres⟩ := bind_eq_ok.mp hk
    obtain ⟨k2, h2, -, -, hr, -⟩ := timerHandle_placed h.sound.placed (by simp [h.sound.nesting, hw])
    obtain rfl := Except.ok.inj (h2.symm.trans h1)
    obtain rfl := Except.ok.inj ((resume_of_none (hr.waiting.trans hw)).symm.trans hres)
    refine ⟨_, h.after hk (fun _ => by simp) ?_ ?_, hr.waiting.trans hw⟩
    · exact (List.append_nil t).symm ▸ h.keys.congr hks
    · intro a ha
      rw [hr.mem]
      exact h.memory a ha
  | key scanCode =>
    obtain ⟨k1, h1, hres⟩ := bind_eq_ok.mp hk
    have hw1 : k1.waiting = none := by rw [keyboardHandle_rest h1, hw]
    obtain rfl := Except.ok.inj ((resume_of_none hw1).symm.trans hres)
    exact ⟨Q, h.keyboard h1, hw1⟩
  | store a b => cases he
  | sys c => cases he

/-- What the other processes do meanwhile. -/
theorem Attached.others (h : Attached p own k mem t g Q) (hw : k.waiting = none)
    (hc : k.current ≠ p) (he : e.onKeys = false)
    (hmem : ∀ a, own a → k'.mem (phys p a) = k.mem (phys p a)) (hk : step k e = .ok k') :
    ∃ Q', Attached p own k' mem (t ++ typed k e k') g Q' ∧ k'.waiting = none := by
  have hks := keyState_step h.sound hw he hk
  have htyped : typed k e k' = [] := by
    cases e with
    | key _ => cases he
    | _ => rfl
  have hw' : k'.waiting = none := by
    simp only [keyState, Prod.mk.injEq] at hks
    rw [hks.2.2.2, hw]
  refine ⟨_, h.after hk (fun hp => absurd hp hc) ?_ ?_, hw'⟩
  · rw [htyped, List.append_nil]
    exact h.keys.congr hks
  · intro a ha
    rw [hmem a ha]
    exact h.memory a ha

/-- Characters typed while none are missing: what is still to be read grows at its end. -/
theorem Attached.drop_append (h : Attached p own k mem t g Q) (ts future : List UInt8) :
    t.drop g.length ++ (ts ++ future) = (t ++ ts).drop g.length ++ future := by
  rw [List.drop_append_of_le_length h.keys.le, List.append_assoc]

/-- Interrupts, while the process waits for a character. -/
theorem Attached.wait {out : List UInt8} (h : Attached p own k mem t g Q) (ht : t = t0 ++ seen)
    (hown : ∀ a, own a → a < 2 ^ 32) (ha : own a) (hread : Reading p a k) (he : e.isInterrupt)
    (hk : step k e = .ok k') :
    Settles (processSystem p) (streamMeaning own) (Terminal p own t0 (seen ++ typed k e k')) (.sys (.read stdin a 1))
      ⟨k', out⟩ fun future => ⟨mem, t.drop g.length ++ (typed k e k' ++ future), out⟩ := by
  simp only [h.drop_append]
  have ht' : t ++ typed k e k' = t0 ++ (seen ++ typed k e k') := by rw [ht, List.append_assoc]
  cases e with
  | timer =>
    obtain ⟨k1, h1, hres⟩ := bind_eq_ok.mp hk
    have hn : k.intrNesting = true := by rw [h.sound.nesting, hread.waiting]; rfl
    obtain rfl : k = k1 := by simpa [timerHandle, hn] using h1
    rw [resume, hread.waiting] at hres
    have hpoll := h.poll ht hown ha hread.current hread.number hres out
    rwa [← List.append_nil t, ← List.append_nil seen] at hpoll
  | key scanCode =>
    obtain ⟨k1, h1, hres⟩ := bind_eq_ok.mp hk
    have hrest := keyboardHandle_rest h1
    have hw1 : k1.waiting = some (phys p a, 1) := by rw [hrest, hread.waiting]
    rw [resume, hw1] at hres
    refine (h.keyboard h1).poll ht' hown ha ?_ ?_ hres out
    · rw [hrest]
      exact hread.current
    · rw [hrest]
      exact hread.number
  | store a b => cases he
  | sys c => cases he

/-! ### The simulation -/

/-- What the environment of a process does: an interrupt, or a step of another process. -/
theorem env_eq_ok (h : (processSystem p).env s e = .ok s') :
    (e.isInterrupt ∨ s.kernel.current ≠ p) ∧ ∃ k', step s.kernel e = .ok k' ∧ s' = ⟨k', s.out⟩ := by
  simp only [processSystem] at h
  split_ifs at h with hturn
  obtain ⟨k', hk, h⟩ := bind_eq_ok.mp h
  exact ⟨hturn, k', hk, (Except.ok.inj h).symm⟩

/-- **The kernel simulates the machine of a terminal program**, for the first process and its first
child. -/
theorem terminal_simulates (h12 : p = .pcb 1 ∨ p = .pcb 2) (hown : ∀ a, own a → a < 2 ^ 32) :
    Simulates (processSystem p) (streamMeaning own) keysTyped (Terminal p own t0) (staysOnStream own)
      (leavesAlone p own) where
  start := by
    rintro seen o ⟨k, out⟩ s' abs ⟨Q, t, g, mem, ht, h, rfl, hw⟩ hready hadm hs
    obtain ⟨hc, -⟩ : k.current = p ∧ k.waiting = none := of_decide_eq_true hready
    cases o with
    | load a =>
      obtain rfl := Except.ok.inj hs
      exact h.load ht hw hadm
    | store a b =>
      obtain ⟨k', hk, hs⟩ := bind_eq_ok.mp hs
      obtain rfl := Except.ok.inj hs
      exact h.store ht hown hadm hc hk
    | sys c =>
      obtain ⟨k', hk, hs⟩ := bind_eq_ok.mp hs
      obtain rfl := Except.ok.inj hs
      cases c with
      | read fd a len =>
        obtain ⟨rfl, rfl, ha⟩ : fd = stdin ∧ len = 1 ∧ own a = true := of_decide_eq_true hadm
        have hu := userMode_of_call hk
        rw [step, if_pos hu, doSyscall, readAux, if_pos rfl] at hk
        have hbuf : userBuf a (k.setEax 3) = phys p a :=
          userBuf_eq_phys (h.setEax 3).sound h.alive h12 hc (hown a ha)
        have hk : pollRead (userBuf a (k.setEax 3)) 1 (k.setEax 3) = .ok k' := hk
        rw [hbuf] at hk
        have hout : out ++ printed (.read stdin a 1) k = out := List.append_nil out
        rw [hout]
        refine (h.setEax 3).poll ht hown ha hc ?_ hk out
        rw [← hc]
        exact setEax_eax k 3
      | write fd a len =>
        obtain ⟨rfl, hlen, hn⟩ : fd = stdout ∧ 0 ≤ len ∧ ∀ i < len.toNat, own (a + i) = true :=
          of_decide_eq_true hadm
        exact h.write ht h12 hown hlen hn hc hk
      | _ => cases hadm
  env := by
    rintro seen ⟨k, out⟩ s' e abs ⟨Q, t, g, mem, ht, h, rfl, hw⟩ hok hs
    obtain ⟨hturn, k', hk, rfl⟩ := env_eq_ok hs
    have hatt : ∃ Q', Attached p own k' mem (t ++ typed k e k') g Q' ∧ k'.waiting = none := by
      by_cases he : e.isInterrupt = true
      · exact h.interrupt hw he hk
      · obtain ⟨hkeys, hmem⟩ := hok.2 (by simpa using he)
        exact h.others hw (hturn.resolve_left he) hkeys (hmem k' hk) hk
    obtain ⟨Q', hatt, hw'⟩ := hatt
    refine ⟨Q', t ++ typed k e k', g, mem, ?_, hatt, ?_, hw'⟩
    · rw [ht, List.append_assoc]
      rfl
    funext future
    change (⟨mem, t.drop g.length ++ (typed k e k' ++ future), out⟩ : Stream) = _
    rw [h.drop_append]
  wait := by
    rintro seen o ⟨k, out⟩ s' e abs ⟨Q, t, g, mem, ht, h, rfl, a, rfl, ha, hread⟩ hok hs
    obtain ⟨hturn, k', hk, rfl⟩ := env_eq_ok hs
    exact h.wait ht hown ha hread (hturn.resolve_right fun hne => hne hread.current) hk

/-! ### From start-up -/

/-- In every state that is reached the processes are where they belong. -/
theorem sound_based_run {img : Image} {es : List Event} (hk : runFrom img es = .ok k) :
    ∃ Q, Sound k Q ∧ Based k Q := by
  refine runFrom_invariant (P := fun k => ∃ Q, Sound k Q ∧ Based k Q) hk ?_ ?_
  · intro k0 hb
    exact ⟨_, sound_boot hb, based_boot hb⟩
  · rintro k1 k2 e ⟨Q, hs, hb⟩ h2
    exact ⟨_, (sound_step hs h2).1, based_step hs hb h2⟩

/-- A process that is not dead is attached to its terminal. -/
theorem attached_run {img : Image} {kb : Kernel} {es : List Event} (hb : boot img = .ok kb)
    (h0 : Reaches step (fun k e => hasRoom k e) kb es k) (hp : p ∈ procs) (halive : alive k p) :
    ∃ Q t g, Attached p own k (fun a => k.mem (phys p a)) t g Q := by
  have hrun : runFrom img es = .ok k := bind_eq_ok.mpr ⟨kb, hb, h0.run_eq⟩
  obtain ⟨Q, hs, hbased⟩ := sound_based_run hrun
  obtain ⟨-, hkeys, -⟩ := unread_run hb h0
  have hfree : p ∉ Q .free := fun hf => halive (hs.placed.state .free p hf)
  exact ⟨Q, _, _, hs, hbased, ⟨hp, hfree⟩, hkeys, fun _ _ => rfl⟩

/-- **Terminal programs.** Process `p` is the first process or its first child, alive, and does not wait
for a key; from there it runs a program that keeps to the operations of a terminal program, among
interrupts and other processes that leave it alone. Then at its end it has computed what it computes
alone on the machine `Stream`, from the characters that were still to be read, then those typed
meanwhile, then any others: those are left, behind the ones that it has not read. No more than `BUF`
holds has been typed. -/
theorem process_streams {L : Type} {img : Image} {kb : Kernel} {es : List Event}
    {c : Code userInterface L} {l : L} {ts : List (Turn Event)} {s : Session userInterface L Process}
    (hb : boot img = .ok kb) (h0 : Reaches step (fun k e => hasRoom k e) kb es k)
    (hw : k.waiting = none) (h12 : p = .pcb 1 ∨ p = .pcb 2) (halive : alive k p)
    (hown : ∀ a, own a → a < 2 ^ 32)
    (hr : Reaches (processSystem p).sessionStep (allowed (staysOnStream own) (leavesAlone p own))
      (.start c l ⟨k, []⟩) ts s) (hend : s.stack = []) :
    (unread k ++ log (processSystem p).sessionStep (sessionFeeds keysTyped) (.start c l ⟨k, []⟩)
        ts).length ≤ MAX_SIZE ∧
    ∃ mem, (∀ a, own a → mem a = s.state.kernel.mem (phys p a)) ∧ ∀ future,
      c.Run (streamMeaning own) l
        ⟨fun a => k.mem (phys p a), unread k ++
          (log (processSystem p).sessionStep (sessionFeeds keysTyped) (.start c l ⟨k, []⟩) ts ++
            future), []⟩
        s.vars ⟨mem, unread s.state.kernel ++ future, s.state.out⟩ := by
  have hp : p ∈ procs := by
    rcases h12 with rfl | rfl
    · exact mem_procs.mpr ⟨1, by decide, by decide, rfl⟩
    · exact mem_procs.mpr ⟨2, by decide, by decide, rfl⟩
  obtain ⟨Q, t, g, hatt⟩ : ∃ Q t g, Attached p own k (fun a => k.mem (phys p a)) t g Q :=
    attached_run hb h0 hp halive
  have hR : Terminal p own t [] none ⟨k, []⟩ fun future =>
      ⟨fun a => k.mem (phys p a), t.drop g.length ++ future, []⟩ :=
    ⟨Q, t, g, _, (List.append_nil t).symm, hatt, rfl, hw⟩
  obtain ⟨abs, ⟨Q', t', g', mem, rfl, hatt', rfl, -⟩, hrun⟩ :=
    simulates_end (terminal_simulates h12 hown) hR hr hend
  refine ⟨?_, mem, hatt'.memory, fun future => ?_⟩
  · have hsize := hatt'.keys.size
    rw [hatt.keys.unread_eq]
    rw [List.length_append] at hsize ⊢
    rw [List.length_drop]
    omega
  · rw [hatt.keys.unread_eq, hatt'.keys.unread_eq]
    exact hrun future

/-- The addresses of a process's image. -/
def inImage (a : ℕ) : Bool := 0x200000 ≤ a ∧ a < 0x400000

/-- The image ends below `2 ^ 32`. -/
theorem lt_of_inImage (h : inImage a) : a < 2 ^ 32 := by
  have hlt : 0x200000 ≤ a ∧ a < 0x400000 := of_decide_eq_true h
  omega

/-- A turn in which nothing but interrupts comes between the steps of the program. -/
def quietTurn {L : Type} (own : ℕ → Bool) (c : Session userInterface L Process) : Turn Event → Bool
  | .own =>
    match c.asks with
    | some o => UserOp.onStream own o
    | none => true
  | .env e => e.isInterrupt && hasRoom c.state.kernel e

/-- A quiet turn leaves the process alone and keeps it on the stream. -/
theorem allowed_of_quietTurn {L : Type} {c : Session userInterface L Process} {t : Turn Event}
    (h : quietTurn own c t = true) : allowed (staysOnStream own) (leavesAlone p own) c t := by
  cases t with
  | own =>
    intro o ho
    simpa [quietTurn, ho, staysOnStream] using h
  | env e =>
    obtain ⟨hint, hroom⟩ : e.isInterrupt = true ∧ hasRoom c.state.kernel e = true := by
      simpa [quietTurn] using h
    exact ⟨hroom, fun hn => by rw [hint] at hn; cases hn⟩

/-- Reads a character and writes it. -/
def echo : Code userInterface Unit :=
  .seq (.call (fun _ => .sys (.read stdin 0x210000 1)) fun l _ => l)
    (.call (fun _ => .sys (.write stdout 0x210000 1)) fun l _ => l)

/-- It waits for a key that is pressed later. -/
theorem process_streams_echo : ∃ (k : Kernel) (s : Session userInterface Unit Process)
    (mem : ℕ → UInt8), s.state.out = [97] ∧ ∀ future,
      echo.Run (streamMeaning inImage) () ⟨fun a => k.mem (phys (.pcb 1) a), unread k ++
          (log (processSystem (.pcb 1)).sessionStep (sessionFeeds keysTyped) (.start echo () ⟨k, []⟩)
            [.own, .own, .env .timer, .env (.key 30), .own] ++ future), []⟩
        s.vars ⟨mem, unread s.state.kernel ++ future, s.state.out⟩ := by
  have hrun : (checkedFrom .blank hasRoom (.replicate 10 .timer)).any (fun k =>
      decide (k.waiting = none ∧ alive k (.pcb 1)) &&
      (checkedRun (processSystem (.pcb 1)).sessionStep (fun c t => quietTurn inImage c t)
        (.start echo () ⟨k, []⟩) [.own, .own, .env .timer, .env (.key 30), .own]).any fun s =>
          s.stack.isEmpty && decide (s.state.out = [97])) = true := by decide +kernel
  obtain ⟨k, hk, hrun⟩ := (Option.any_eq_true _ _).mp hrun
  obtain ⟨kb, hb, h0⟩ := reaches_of_checkedFrom hk
  simp only [Bool.and_eq_true, decide_eq_true_eq] at hrun
  obtain ⟨⟨hw, halive⟩, hsess⟩ := hrun
  obtain ⟨s, hs, hend⟩ := (Option.any_eq_true _ _).mp hsess
  simp only [Bool.and_eq_true, List.isEmpty_iff, decide_eq_true_eq] at hend
  have hr := (Reaches.of_checkedRun hs).mono fun c t => allowed_of_quietTurn (p := .pcb 1)
  obtain ⟨-, mem, -, hruns⟩ :=
    process_streams hb h0 hw (.inl rfl) halive (fun a => lt_of_inImage) hr hend.1
  exact ⟨k, s, mem, hend.2, hruns⟩

end OsLab
