import OsLab.Lib.Store

/-!
# A store that is saved

A `SafeStore` is a store together with its files as they were when they were saved last. A restart
opens nothing and goes on with those; what has been called since then is lost.

* `recovers`: a restart brings back the files of the last save, whatever has happened since then.
* `survives`: what has been written to a file and saved is read after any number of saves and
  restarts, as long as nobody writes to the file.
-/

namespace OsLab.Lib

variable {π κ α : Type}

/-- A store, and its files when they were saved. -/
structure SafeStore (π κ α : Type) where
  store : Store π κ α
  saved : κ → Option (List α)

/-- A call of the store, or what happens to the whole. -/
inductive SafeCall (π κ α : Type)
  | call (c : StoreCall π κ α)
  | save
  | restart

namespace SafeStore

variable [DecidableEq π] [DecidableEq κ] {z : α} {τ τ1 τ2 τ3 : SafeStore π κ α}
  {c : SafeCall π κ α} {cs cs' : List (SafeCall π κ α)} {name : κ} {b : List α}

/-- **What a call does.** -/
inductive Step (z : α) (τ : SafeStore π κ α) : SafeCall π κ α → SafeStore π κ α → Prop
  | call {c : StoreCall π κ α} {σ : Store π κ α} (hs : Store.Step z τ.store c σ) :
      Step z τ (.call c) ⟨σ, τ.saved⟩
  | save : Step z τ .save ⟨τ.store, τ.store.files⟩
  | restart : Step z τ .restart ⟨.fresh τ.saved, τ.saved⟩

/-- Only a save changes what is saved. -/
theorem Step.saved_eq (hs : Step z τ c τ1) (hc : c ≠ .save) : τ1.saved = τ.saved := by
  cases hs with
  | call _ => rfl
  | save => exact absurd rfl hc
  | restart => rfl

/-- **A restart** brings back the files of the last save. -/
theorem recovers (hsave : Step z τ .save τ1)
    (ht : Trace (fun τ c τ' => Step z τ c τ' ∧ c ≠ .save) τ1 cs τ2) (hr : Step z τ2 .restart τ3) :
    τ3.store.files = τ.store.files := by
  have hsaved : τ2.saved = τ1.saved :=
    ht.invariant (P := fun τ' => τ'.saved = τ1.saved) rfl fun _ _ _ h hs => (hs.1.saved_eq hs.2).trans h
  cases hsave with
  | save =>
    cases hr with
    | restart => exact hsaved

/-! ### What one writes the other reads -/

/-- A call that is no write to the file. -/
def Quiet (z : α) (name : κ) (τ : SafeStore π κ α) (c : SafeCall π κ α) (τ' : SafeStore π κ α) : Prop :=
  Step z τ c τ' ∧ ∀ c', c = .call c' → ¬τ.store.writesTo name c'

/-- Without a restart the file stays what it is. -/
theorem Quiet.kept (hq : Quiet z name τ c τ1) (hc : c ≠ .restart) (hb : τ.store.files name = some b) :
    τ1.store.files name = some b := by
  obtain ⟨hs, hno⟩ := hq
  cases hs with
  | call hs => exact hs.unwritten hb (hno _ rfl)
  | save => exact hb
  | restart => exact absurd rfl hc

/-- A file that is saved as it is stays and stays saved. -/
theorem Quiet.saved (hq : Quiet z name τ c τ1)
    (hb : τ.store.files name = some b ∧ τ.saved name = some b) :
    τ1.store.files name = some b ∧ τ1.saved name = some b := by
  obtain ⟨hs, hno⟩ := hq
  cases hs with
  | call hs => exact ⟨hs.unwritten hb.1 (hno _ rfl), hb.2⟩
  | save => exact ⟨hb.1, hb.1⟩
  | restart => exact ⟨hb.2, hb.2⟩

/-- **What was written to a file and saved** is what a read at that place returns, also after
restarts, if nobody has written to the file in between. -/
theorem survives {τ4 : SafeStore π κ α} {σ : Store π κ α} {p q : π} {fd j h i count : ℕ} {f g : OpenFile κ}
    {b' buf out : List α}
    (hb : τ.store.Behind p fd h f b) (hw : Step z τ (.call (.write p fd buf count)) τ1)
    (ht : Trace (fun τ c τ' => Quiet z f.name τ c τ' ∧ c ≠ .restart) τ1 cs τ2)
    (hsave : Step z τ2 .save τ3) (ht' : Trace (Quiet z f.name) τ3 cs' τ4)
    (hg : τ4.store.Behind q j i g b') (hname : g.name = f.name) (hpos : g.pos = f.pos)
    (hr : Store.Step z τ4.store (.read q j buf.length out) σ) : out = buf := by
  set content := ArrayFile.overwrite z b f.pos buf
  have hwritten : τ1.store.files f.name = some content := by
    cases hw with
    | call hw =>
      cases hw with
      | write hb1 =>
        obtain ⟨-, rfl, rfl⟩ := hb.eq hb1
        exact Function.update_self ..
  have hkept : τ2.store.files f.name = some content :=
    ht.invariant (P := fun τ' => τ'.store.files f.name = some content) hwritten
      fun _ _ _ h hq => hq.1.kept hq.2 h
  have hsaved : τ3.store.files f.name = some content ∧ τ3.saved f.name = some content := by
    cases hsave with
    | save => exact ⟨hkept, hkept⟩
  obtain ⟨hfile, -⟩ := ht'.invariant
    (P := fun τ' => τ'.store.files f.name = some content ∧ τ'.saved f.name = some content) hsaved
    fun _ _ _ h hq => hq.saved h
  cases hr with
  | read hg1 =>
    obtain ⟨-, rfl, rfl⟩ := hg.eq hg1
    obtain rfl : b' = content := by
      apply Option.some.inj
      rw [← hg.file, hname, hfile]
    rw [hpos]
    exact ArrayFile.read_overwrite

end SafeStore

end OsLab.Lib
