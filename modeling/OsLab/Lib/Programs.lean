import OsLab.Lib.Runs

/-!
# Programs that make calls

A program has local variables and control flow of its own, and asks the machine under it for
everything else: an `Interface` lists the operations it can ask for and what each returns. The
meaning of the operations is left open (`Meaning`), so one program text can be run on several
machines.

* `Code.Run`: a whole run, as a relation between the variables and the machine's state before and
  after. Calls that fail have no run.
* `silent`: one step of control flow, on a stack of programs still to run. `Runs.silent` and
  `Runs.call` say that the rest of the run after a step is the rest of the run before it, so a
  program that is executed step by step computes what `Code.Run` says.
* `Triple`: partial correctness, with one rule for each construct of the language.
-/

namespace OsLab.Lib

/-- The operations that a program can ask for, and what each returns. -/
structure Interface where
  Op : Type
  Res : Op → Type

/-- Programs over an interface with local variables `L`. -/
inductive Code (I : Interface) (L : Type) : Type
  | skip
  | assign (f : L → L)
  | call (o : L → I.Op) (set : (l : L) → I.Res (o l) → L)
  | seq (a b : Code I L)
  | branch (q : L → Bool) (a b : Code I L)
  | loop (q : L → Bool) (body : Code I L)

/-- What the operations do to a machine with states `σ`. -/
abbrev Meaning (I : Interface) (σ χ : Type) : Type := (o : I.Op) → σ → Except χ (I.Res o × σ)

variable {I : Interface} {L σ χ : Type} {m : Meaning I σ χ} {P Q R : L → σ → Prop}

/-! ### Whole runs -/

/-- A run of a program: the variables and the state before it and after it. -/
inductive Code.Run (m : Meaning I σ χ) : Code I L → L → σ → L → σ → Prop
  | skip {l s} : Run m .skip l s l s
  | assign {f l s} : Run m (.assign f) l s (f l) s
  | call {o : L → I.Op} {set l s r s'} : m (o l) s = .ok (r, s') →
      Run m (.call o set) l s (set l r) s'
  | seq {a b l s l' s' l'' s''} : Run m a l s l' s' → Run m b l' s' l'' s'' →
      Run m (.seq a b) l s l'' s''
  | branchTrue {q a b l s l' s'} : q l = true → Run m a l s l' s' →
      Run m (.branch q a b) l s l' s'
  | branchFalse {q a b l s l' s'} : q l = false → Run m b l s l' s' →
      Run m (.branch q a b) l s l' s'
  | loopTrue {q b l s l' s' l'' s''} : q l = true → Run m b l s l' s' →
      Run m (.loop q b) l' s' l'' s'' → Run m (.loop q b) l s l'' s''
  | loopFalse {q b l s} : q l = false → Run m (.loop q b) l s l s

/-- The runs of a stack of programs. -/
def Runs (m : Meaning I σ χ) : List (Code I L) → L → σ → L → σ → Prop
  | [], l, s, l', s' => l = l' ∧ s = s'
  | c :: stack, l, s, l'', s'' => ∃ l' s', c.Run m l s l' s' ∧ Runs m stack l' s' l'' s''

/-! ### Step by step -/

/-- One step of control flow; a call is not one. -/
def silent : Code I L → List (Code I L) → L → Option (List (Code I L) × L)
  | .skip, stack, l => some (stack, l)
  | .assign f, stack, l => some (stack, f l)
  | .call _ _, _, _ => none
  | .seq a b, stack, l => some (a :: b :: stack, l)
  | .branch q a b, stack, l => some (if q l then a :: stack else b :: stack, l)
  | .loop q body, stack, l => some (if q l then body :: .loop q body :: stack else stack, l)

/-- After a step of control flow the rest of the run is the rest of the run before it. -/
theorem Runs.silent {c : Code I L} {stack stack' : List (Code I L)} {l l' l'' : L} {s s'' : σ}
    (hs : silent c stack l = some (stack', l')) (h : Runs m stack' l' s l'' s'') :
    Runs m (c :: stack) l s l'' s'' := by
  cases c with
  | skip =>
    obtain ⟨rfl, rfl⟩ := Prod.mk.inj (Option.some.inj hs)
    exact ⟨l, s, .skip, h⟩
  | assign f =>
    obtain ⟨rfl, rfl⟩ := Prod.mk.inj (Option.some.inj hs)
    exact ⟨f l, s, .assign, h⟩
  | call o set => cases hs
  | seq a b =>
    obtain ⟨rfl, rfl⟩ := Prod.mk.inj (Option.some.inj hs)
    obtain ⟨l1, s1, ha, l2, s2, hb, h⟩ := h
    exact ⟨l2, s2, .seq ha hb, h⟩
  | branch q a b =>
    obtain ⟨rfl, rfl⟩ := Prod.mk.inj (Option.some.inj hs)
    split_ifs at h with hq
    · obtain ⟨l1, s1, ha, h⟩ := h
      exact ⟨l1, s1, .branchTrue hq ha, h⟩
    · obtain ⟨l1, s1, hb, h⟩ := h
      exact ⟨l1, s1, .branchFalse (by simpa using hq) hb, h⟩
  | loop q body =>
    obtain ⟨rfl, rfl⟩ := Prod.mk.inj (Option.some.inj hs)
    split_ifs at h with hq
    · obtain ⟨l1, s1, hb, l2, s2, hl, h⟩ := h
      exact ⟨l2, s2, .loopTrue hq hb hl, h⟩
    · exact ⟨l, s, .loopFalse (by simpa using hq), h⟩

/-- So it is after a call that succeeds. -/
theorem Runs.call {o : L → I.Op} {set : (l : L) → I.Res (o l) → L} {stack : List (Code I L)}
    {l l'' : L} {s s' s'' : σ} {r : I.Res (o l)} (hm : m (o l) s = .ok (r, s'))
    (h : Runs m stack (set l r) s' l'' s'') : Runs m (.call o set :: stack) l s l'' s'' :=
  ⟨_, _, .call hm, h⟩

/-- A program of one piece of code. -/
theorem runs_singleton {c : Code I L} {l l' : L} {s s' : σ} :
    Runs m [c] l s l' s' ↔ c.Run m l s l' s' := by
  constructor
  · rintro ⟨l1, s1, h, rfl, rfl⟩
    exact h
  · exact fun h => ⟨l', s', h, rfl, rfl⟩

/-! ### Partial correctness -/

/-- From `P`, a run of `c` that ends does so in `Q`. -/
def Triple (m : Meaning I σ χ) (P : L → σ → Prop) (c : Code I L) (Q : L → σ → Prop) : Prop :=
  ∀ l s l' s', P l s → c.Run m l s l' s' → Q l' s'

/-- The rule of an assignment. -/
theorem Triple.assign {f : L → L} (h : ∀ l s, P l s → Q (f l) s) : Triple m P (.assign f) Q := by
  intro l s l' s' hp hr
  cases hr
  exact h l s hp

/-- The rule of a call: what it needs holds of its answer and its new state. -/
theorem Triple.call {o : L → I.Op} {set : (l : L) → I.Res (o l) → L}
    (h : ∀ l s r s', P l s → m (o l) s = .ok (r, s') → Q (set l r) s') :
    Triple m P (.call o set) Q := by
  intro l s l' s' hp hr
  cases hr with
  | call hm => exact h l s _ s' hp hm

/-- The rule of a sequence. -/
theorem Triple.seq {a b : Code I L} (ha : Triple m P a R) (hb : Triple m R b Q) :
    Triple m P (.seq a b) Q := by
  intro l s l' s' hp hr
  cases hr with
  | seq h1 h2 => exact hb _ _ _ _ (ha _ _ _ _ hp h1) h2

/-- The rule of a branch: each side knows the outcome of the test. -/
theorem Triple.branch {q : L → Bool} {a b : Code I L}
    (ha : Triple m (fun l s => P l s ∧ q l = true) a Q)
    (hb : Triple m (fun l s => P l s ∧ q l = false) b Q) : Triple m P (.branch q a b) Q := by
  intro l s l' s' hp hr
  cases hr with
  | branchTrue hq h => exact ha _ _ _ _ ⟨hp, hq⟩ h
  | branchFalse hq h => exact hb _ _ _ _ ⟨hp, hq⟩ h

/-- **Loops**: an invariant that the body keeps holds at the end, with the condition false. -/
theorem Triple.loop {q : L → Bool} {b : Code I L}
    (h : Triple m (fun l s => P l s ∧ q l = true) b P) :
    Triple m P (.loop q b) fun l s => P l s ∧ q l = false := by
  intro l s l' s' hp hr
  generalize hc : Code.loop q b = c at hr
  induction hr with
  | loopTrue hq hb _ _ ih =>
    obtain ⟨rfl, rfl⟩ := Code.loop.inj hc
    exact ih (h _ _ _ _ ⟨hp, hq⟩ hb) rfl
  | loopFalse hq =>
    obtain ⟨rfl, rfl⟩ := Code.loop.inj hc
    exact ⟨hp, hq⟩
  | _ => cases hc

/-- A weaker goal. -/
theorem Triple.mono {c : Code I L} (h : Triple m P c R) (hq : ∀ l s, R l s → Q l s) :
    Triple m P c Q :=
  fun l s l' s' hp hr => hq _ _ (h l s l' s' hp hr)

end OsLab.Lib
