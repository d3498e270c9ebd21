import OsLab.Lib.Programs

/-!
# A program among other events

A program (`Code`) runs on a machine that does not belong to it alone: between any two of its steps
the environment makes events, and an operation may stay unfinished until such an event ends it
(`System`). A `Session` is the machine together with the stack of programs still to run, and
`sessionStep` one step of it: the program's own, or the environment's.

The environment also feeds the program with items (`feeds`). `Simulates` relates the machine to
another one, which runs the program alone and gets the items from a list that is known beforehand: a
state of the machine stands for a function from the items still to come. `simulates_run` is the rule
of this file: whatever the interleaving, what the rest of the program computes on the other machine
from here is what the whole program computes there from the beginning, with the items that have come
since put before the ones to come.
-/

namespace OsLab.Lib

variable {I : Interface} {L S σ ε ι χ χ' : Type}

/-- A machine that a program shares with an environment. -/
structure System (I : Interface) (S ε χ : Type) where
  /-- The program may go on. -/
  ready : S → Bool
  /-- The operation is asked for. -/
  start : I.Op → S → Except χ S
  /-- What it returns, if it is finished. -/
  result : (o : I.Op) → S → Option (I.Res o)
  env : S → ε → Except χ S
  /-- The reason why a step cannot happen. -/
  disabled : χ

/-- The machine, and where the program is; `busy` says that its operation is not finished. -/
structure Session (I : Interface) (L S : Type) where
  state : S
  stack : List (Code I L)
  vars : L
  busy : Bool

/-- Who makes a step. -/
inductive Turn (ε : Type)
  | own
  | env (e : ε)
  deriving DecidableEq

/-- The program at the start of its run. -/
def Session.start (c : Code I L) (l : L) (s : S) : Session I L S := ⟨s, [c], l, false⟩

namespace System

variable (sys : System I S ε χ)

/-- The operation at the top of the stack returns if it is finished. -/
def settle (s : S) (stack : List (Code I L)) (l : L) : Session I L S :=
  match stack with
  | .call o set :: rest =>
    match sys.result (o l) s with
    | some r => ⟨s, rest, set l r, false⟩
    | none => ⟨s, .call o set :: rest, l, true⟩
  | stack => ⟨s, stack, l, false⟩

/-- A step of the program. -/
def ownStep (c : Session I L S) : Except χ (Session I L S) :=
  match c.stack with
  | [] => .error sys.disabled
  | .call o set :: rest => do
    let s ← sys.start (o c.vars) c.state
    .ok (sys.settle s (.call o set :: rest) c.vars)
  | p :: rest =>
    match silent p rest c.vars with
    | some (stack, l) => .ok { c with stack := stack, vars := l }
    | none => .error sys.disabled

/-- One step of a session. -/
def sessionStep (c : Session I L S) : Turn ε → Except χ (Session I L S)
  | .own => if sys.ready c.state ∧ c.busy = false then sys.ownStep c else .error sys.disabled
  | .env e => do
    let s ← sys.env c.state e
    .ok (if c.busy then sys.settle s c.stack c.vars else { c with state := s })

end System

/-- The operation that a program asks for next. -/
def Session.asks (c : Session I L S) : Option I.Op :=
  match c.stack with
  | .call o _ :: _ => some (o c.vars)
  | _ => none

/-- The operation that is not finished. -/
def Session.pending (c : Session I L S) : Option I.Op := if c.busy then c.asks else none

/-! ### Simulation -/

variable {sys : System I S ε χ} {m : Meaning I σ χ'} {feeds : S → ε → S → List ι}
  {R : List ι → Option I.Op → S → (List ι → σ) → Prop} {adm : S → I.Op → Prop} {ok : S → ε → Prop}

/-- A finished operation has done on the other machine what it means there, and an unfinished one
nothing yet. -/
structure Settles (sys : System I S ε χ) (m : Meaning I σ χ')
    (R : Option I.Op → S → (List ι → σ) → Prop) (o : I.Op) (s : S) (abs : List ι → σ) : Prop where
  finished : ∀ r, sys.result o s = some r →
    ∃ abs', (∀ future, m o (abs future) = .ok (r, abs' future)) ∧ R none s abs'
  unfinished : sys.result o s = none → R (some o) s abs

/-- `R` relates the states of the machine, by the items seen so far and the operation that is not
finished, to those of the other one. Operations are as `adm` says, and events as `ok` says. -/
structure Simulates (sys : System I S ε χ) (m : Meaning I σ χ') (feeds : S → ε → S → List ι)
    (R : List ι → Option I.Op → S → (List ι → σ) → Prop) (adm : S → I.Op → Prop)
    (ok : S → ε → Prop) : Prop where
  start : ∀ seen o s s' abs, R seen none s abs → sys.ready s → adm s o → sys.start o s = .ok s' →
    Settles sys m (R seen) o s' abs
  env : ∀ seen s s' e abs, R seen none s abs → ok s e → sys.env s e = .ok s' →
    R (seen ++ feeds s e s') none s' fun future => abs (feeds s e s' ++ future)
  wait : ∀ seen o s s' e abs, R seen (some o) s abs → ok s e → sys.env s e = .ok s' →
    Settles sys m (R (seen ++ feeds s e s')) o s' fun future => abs (feeds s e s' ++ future)

/-- The steps that a simulation can speak about. -/
def allowed (adm : S → I.Op → Prop) (ok : S → ε → Prop) (c : Session I L S) : Turn ε → Prop
  | .own => ∀ o, c.asks = some o → adm c.state o
  | .env e => ok c.state e

/-- The items that a step of a session brings. -/
def sessionFeeds (feeds : S → ε → S → List ι) (c : Session I L S) :
    Turn ε → Session I L S → List ι
  | .own, _ => []
  | .env e, c' => feeds c.state e c'.state

/-- An unfinished operation is at the top of the stack. -/
def Session.Waiting (c : Session I L S) : Prop := c.busy = true → c.asks ≠ none

/-- A program that goes on by itself does not touch the state. -/
theorem settle_state (s : S) (stack : List (Code I L)) (l : L) :
    (sys.settle s stack l).state = s := by
  unfold System.settle
  split
  · split <;> rfl
  · rfl

section

variable {o : L → I.Op} {set : (l : L) → I.Res (o l) → L} {rest : List (Code I L)} {l : L} {s : S}

/-- A call that has its answer is left behind. -/
theorem settle_finished {r : I.Res (o l)} (h : sys.result (o l) s = some r) :
    sys.settle s (.call o set :: rest) l = ⟨s, rest, set l r, false⟩ := by
  simp [System.settle, h]

/-- A call that has no answer yet stays on top. -/
theorem settle_unfinished (h : sys.result (o l) s = none) :
    sys.settle s (.call o set :: rest) l = ⟨s, .call o set :: rest, l, true⟩ := by
  simp [System.settle, h]

/-- What an operation at the top of the stack has done when it settles. -/
theorem Settles.session {R : Option I.Op → S → (List ι → σ) → Prop} {abs : List ι → σ}
    (h : Settles sys m R (o l) s abs) (set : (l : L) → I.Res (o l) → L) (rest : List (Code I L)) :
    (sys.settle s (.call o set :: rest) l).Waiting ∧
      ∃ abs', R (sys.settle s (.call o set :: rest) l).pending s abs' ∧
        ∀ future l' s', Runs m (sys.settle s (.call o set :: rest) l).stack
          (sys.settle s (.call o set :: rest) l).vars (abs' future) l' s' →
          Runs m (.call o set :: rest) l (abs future) l' s' := by
  cases hr : sys.result (o l) s with
  | none =>
    rw [settle_unfinished hr]
    exact ⟨fun _ => nofun, abs, h.unfinished hr, fun future l' s' hrun => hrun⟩
  | some r =>
    rw [settle_finished hr]
    obtain ⟨abs', hm, hR⟩ := h.finished r hr
    exact ⟨nofun, abs', hR, fun future l' s' hrun => .call (hm future) hrun⟩

end

/-- One step of a session, seen from the other machine. -/
theorem Simulates.step {c c' : Session I L S} {t : Turn ε} {seen : List ι} {abs : List ι → σ}
    (h : Simulates sys m feeds R adm ok) (hw : c.Waiting) (hR : R seen c.pending c.state abs)
    (hok : allowed adm ok c t) (hs : sys.sessionStep c t = .ok c') :
    c'.Waiting ∧ ∃ abs', R (seen ++ sessionFeeds feeds c t c') c'.pending c'.state abs' ∧
      ∀ future l' s', Runs m c'.stack c'.vars (abs' future) l' s' →
        Runs m c.stack c.vars (abs (sessionFeeds feeds c t c' ++ future)) l' s' := by
  obtain ⟨s, stack, l, busy⟩ := c
  cases t with
  | own =>
    simp only [System.sessionStep] at hs
    split_ifs at hs with hready
    obtain ⟨hready, rfl⟩ : sys.ready s = true ∧ busy = false := hready
    cases stack with
    | nil => cases hs
    | cons p rest =>
      cases p with
      | call o set =>
        obtain ⟨s', hstart, hs⟩ := bind_eq_ok.mp hs
        obtain rfl := Except.ok.inj hs
        have hset := (h.start _ _ _ _ _ hR hready (hok _ rfl) hstart).session set rest
        rw [settle_state, sessionFeeds, List.append_nil]
        exact hset
      | _ =>
        obtain rfl := Except.ok.inj hs
        refine ⟨nofun, abs, ?_, fun future l' s' hrun => Runs.silent rfl hrun⟩
        rw [sessionFeeds, List.append_nil]
        exact hR
  | env e =>
    obtain ⟨s', henv, hs⟩ := bind_eq_ok.mp hs
    cases busy with
    | false =>
      obtain rfl := Except.ok.inj hs
      exact ⟨nofun, _, h.env _ _ _ _ _ hR hok henv, fun future l' s' hrun => hrun⟩
    | true =>
      obtain rfl := Except.ok.inj hs
      cases stack with
      | nil => exact absurd rfl (hw rfl)
      | cons p rest =>
        cases p with
        | call o set =>
          have hset := (h.wait _ _ _ _ _ _ hR hok henv).session set rest
          simp only [if_true, sessionFeeds, settle_state]
          exact hset
        | _ => exact absurd rfl (hw rfl)

/-- **Whatever the interleaving**, the rest of the program computes what is left of its whole run. -/
theorem simulates_run {c0 c : Session I L S} {ts : List (Turn ε)} {abs0 : List ι → σ}
    (h : Simulates sys m feeds R adm ok) (hw : c0.Waiting) (hR : R [] c0.pending c0.state abs0)
    (hr : Reaches sys.sessionStep (allowed adm ok) c0 ts c) :
    c.Waiting ∧ ∃ abs,
      R (log sys.sessionStep (sessionFeeds feeds) c0 ts) c.pending c.state abs ∧
      ∀ future l' s', Runs m c.stack c.vars (abs future) l' s' →
        Runs m c0.stack c0.vars
          (abs0 (log sys.sessionStep (sessionFeeds feeds) c0 ts ++ future)) l' s' := by
  refine hr.invariant (P := fun ts c => c.Waiting ∧ ∃ abs,
      R (log sys.sessionStep (sessionFeeds feeds) c0 ts) c.pending c.state abs ∧
      ∀ future l' s', Runs m c.stack c.vars (abs future) l' s' →
        Runs m c0.stack c0.vars
          (abs0 (log sys.sessionStep (sessionFeeds feeds) c0 ts ++ future)) l' s') ?_ ?_
  · exact ⟨hw, abs0, hR, fun future l' s' hrun => hrun⟩
  · rintro ts c c' t hr ⟨hw, abs, hR, hruns⟩ hok hs
    obtain ⟨hw', abs', hR', hstep⟩ := h.step hw hR hok hs
    rw [log_snoc hr.run_eq hs]
    refine ⟨hw', abs', hR', fun future l' s' hrun => ?_⟩
    rw [List.append_assoc]
    exact hruns _ _ _ (hstep _ _ _ hrun)

/-- A session that has come to the end of its program: what it has computed. -/
theorem simulates_end {p : Code I L} {l : L} {s0 : S} {c : Session I L S} {ts : List (Turn ε)}
    {abs0 : List ι → σ} (h : Simulates sys m feeds R adm ok) (hR : R [] none s0 abs0)
    (hr : Reaches sys.sessionStep (allowed adm ok) (.start p l s0) ts c) (hend : c.stack = []) :
    ∃ abs, R (log sys.sessionStep (sessionFeeds feeds) (.start p l s0) ts) none c.state abs ∧
      ∀ future,
      p.Run m l (abs0 (log sys.sessionStep (sessionFeeds feeds) (.start p l s0) ts ++ future))
        c.vars (abs future) := by
  have hw0 : (Session.start p l s0).Waiting := nofun
  obtain ⟨hw, abs, hR', hruns⟩ := simulates_run h hw0 hR hr
  have hasks : c.asks = none := by rw [Session.asks, hend]
  have hpend : c.pending = none := by
    unfold Session.pending
    rw [hasks]
    split_ifs <;> rfl
  refine ⟨abs, hpend ▸ hR', fun future => runs_singleton.mp (hruns future _ _ ?_)⟩
  rw [hend]
  exact ⟨rfl, rfl⟩

end OsLab.Lib
