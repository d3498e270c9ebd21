import OsLab.Lib.ArrayFile
import OsLab.Lib.Simulation
import Mathlib.Logic.Function.Basic

/-!
# A store of named files

What a file system is for, without inodes, directories or tables: files are lists of values under
names. A process has descriptors; each refers to an open file, which is a name and a position, and a
child has the descriptors of its parent, so that several may refer to one open file.

`Store.Step` says what the calls do and what they return: a read returns the values from the position
on, a write puts its buffer there and fills a gap with `z`, and both move the position.

* `Step.sane`: every descriptor refers to an open file that exists.
* `Step.unwritten`: only a write to a file changes it.
* `passes`: what was written to a file is what a read at that place returns, by whatever process and
  through whatever descriptor, if nobody has written to the file in between.
-/

namespace OsLab.Lib

/-- A file that is open. -/
structure OpenFile (κ : Type) where
  name : κ
  pos : ℕ

/-- Files, open files and descriptors. -/
structure Store (π κ α : Type) where
  files : κ → Option (List α)
  opened : ℕ → Option (OpenFile κ)
  descriptor : π → ℕ → Option ℕ

/-- Where a seek counts from. -/
inductive Whence
  | start
  | here
  | fileEnd

/-- A call of a process, with what it returns. -/
inductive StoreCall (π κ α : Type)
  | openFile (p : π) (name : κ) (fd : ℕ)
  | read (p : π) (fd n : ℕ) (out : List α)
  | write (p : π) (fd : ℕ) (buf : List α) (count : ℕ)
  | seek (p : π) (fd : ℕ) (whence : Whence) (offset : ℤ)
  | close (p : π) (fd : ℕ)
  | fork (p child : π)
  | print (name : κ) (out : List α)

variable {π κ α : Type}

namespace Store

/-- The files, with nothing open. -/
def fresh (files : κ → Option (List α)) : Store π κ α := ⟨files, fun _ => none, fun _ _ => none⟩

/-- Descriptor `fd` of `p` refers to the open file `f`, which has number `h`, and `b` is in it. -/
structure Behind (σ : Store π κ α) (p : π) (fd h : ℕ) (f : OpenFile κ) (b : List α) : Prop where
  descriptor : σ.descriptor p fd = some h
  opened : σ.opened h = some f
  file : σ.files f.name = some b

/-- What a seek counts from. -/
def base (f : OpenFile κ) (b : List α) : Whence → ℤ
  | .start => 0
  | .here => f.pos
  | .fileEnd => b.length

/-- The open file gets another position. -/
def moveTo (σ : Store π κ α) (h : ℕ) (f : OpenFile κ) (pos : ℕ) : Store π κ α :=
  { σ with opened := Function.update σ.opened h (some { f with pos }) }

/-- The file gets another content. -/
def put [DecidableEq κ] (σ : Store π κ α) (name : κ) (b : List α) : Store π κ α :=
  { σ with files := Function.update σ.files name (some b) }

/-- The descriptor refers to something else, or to nothing. -/
def setDescriptor [DecidableEq π] (σ : Store π κ α) (p : π) (fd : ℕ) (h : Option ℕ) : Store π κ α :=
  { σ with descriptor := Function.update σ.descriptor p (Function.update (σ.descriptor p) fd h) }

/-- **What a call does**, and what it returns. -/
inductive Step [DecidableEq π] [DecidableEq κ] (z : α) (σ : Store π κ α) :
    StoreCall π κ α → Store π κ α → Prop
  /-- A file that does not exist is made; it is empty. The number is one that nobody has. -/
  | openFile {p : π} {name : κ} {fd h : ℕ} (hfd : σ.descriptor p fd = none)
      (hh : ∀ q j, σ.descriptor q j ≠ some h) :
      Step z σ (.openFile p name fd)
        (((σ.put name ((σ.files name).getD [])).moveTo h ⟨name, 0⟩ 0).setDescriptor p fd (some h))
  /-- The position goes on, but not behind the end of the file. -/
  | read {p : π} {fd h n : ℕ} {f : OpenFile κ} {b : List α} (hb : σ.Behind p fd h f b) :
      Step z σ (.read p fd n ((b.drop f.pos).take n)) (σ.moveTo h f (min (f.pos + n) b.length))
  | write {p : π} {fd h : ℕ} {f : OpenFile κ} {b buf : List α} (hb : σ.Behind p fd h f b) :
      Step z σ (.write p fd buf buf.length)
        ((σ.put f.name (ArrayFile.overwrite z b f.pos buf)).moveTo h f (f.pos + buf.length))
  | seek {p : π} {fd h pos : ℕ} {f : OpenFile κ} {b : List α} {whence : Whence} {offset : ℤ}
      (hb : σ.Behind p fd h f b) (hpos : base f b whence + offset = pos) :
      Step z σ (.seek p fd whence offset) (σ.moveTo h f pos)
  | close {p : π} {fd h : ℕ} (hd : σ.descriptor p fd = some h) :
      Step z σ (.close p fd) (σ.setDescriptor p fd none)
  /-- The child has no descriptors and gets those of its parent. -/
  | fork {p child : π} (hc : ∀ j, σ.descriptor child j = none) :
      Step z σ (.fork p child) { σ with
        descriptor := Function.update σ.descriptor child (σ.descriptor p) }
  | print {name : κ} {b : List α} (hb : σ.files name = some b) : Step z σ (.print name b) σ

variable {σ σ' σ1 σ2 σ3 : Store π κ α} {p q : π} {name : κ} {fd j h i : ℕ} {f g : OpenFile κ}
  {b b' buf out : List α} {c : StoreCall π κ α} {cs : List (StoreCall π κ α)} {z : α}

/-- A new descriptor changes one entry of one process. -/
theorem setDescriptor_descriptor [DecidableEq π] {x : Option ℕ} :
    (σ.setDescriptor p fd x).descriptor q j = if q = p ∧ j = fd then x else σ.descriptor q j := by
  unfold setDescriptor
  by_cases hq : q = p
  · subst hq
    by_cases hj : j = fd
    · simp [hj]
    · simp [hj]
  · simp [hq]

/-- What a descriptor refers to is one thing. -/
theorem Behind.eq (h1 : σ.Behind p fd h f b) (h2 : σ.Behind p fd i g b') : h = i ∧ f = g ∧ b = b' := by
  obtain rfl : h = i := Option.some.inj (h1.descriptor.symm.trans h2.descriptor)
  obtain rfl : f = g := Option.some.inj (h1.opened.symm.trans h2.opened)
  exact ⟨rfl, rfl, Option.some.inj (h1.file.symm.trans h2.file)⟩

/-! ### What every call keeps -/

/-- Every descriptor refers to an open file that exists. -/
def Sane (σ : Store π κ α) : Prop :=
  ∀ p fd h, σ.descriptor p fd = some h → ∃ f b, σ.Behind p fd h f b

/-- An open file that moves keeps its name. -/
theorem Sane.moved {pos : ℕ} (hsane : σ.Sane) (hb : σ.Behind p fd h f b)
    (hkept : ∀ name b, σ.files name = some b → ∃ b', σ'.files name = some b')
    (hd : σ'.descriptor = σ.descriptor)
    (ho : σ'.opened = Function.update σ.opened h (some { f with pos })) : σ'.Sane := by
  intro q j i hi
  have hi' : σ.descriptor q j = some i := by
    rw [← hd]
    exact hi
  by_cases hih : i = h
  · subst hih
    obtain ⟨b', hb'⟩ := hkept _ _ hb.file
    refine ⟨{ f with pos }, b', hi, ?_, hb'⟩
    rw [ho, Function.update_self]
  · obtain ⟨g, b', hg⟩ := hsane q j i hi'
    obtain ⟨b'', hb''⟩ := hkept _ _ hg.file
    refine ⟨g, b'', hi, ?_, hb''⟩
    rw [ho, Function.update_of_ne hih]
    exact hg.opened

section

variable [DecidableEq π] [DecidableEq κ]

/-- **A file stays.** -/
theorem Step.kept (hs : Step z σ c σ') (hb : σ.files name = some b) : ∃ b', σ'.files name = some b' := by
  cases hs with
  | @openFile p name' fd h hfd hh =>
    by_cases hn : name = name'
    · subst hn
      exact ⟨_, Function.update_self ..⟩
    · exact ⟨b, (Function.update_of_ne hn _ _).trans hb⟩
  | @write p fd h f b' buf hb' =>
    by_cases hn : name = f.name
    · subst hn
      exact ⟨_, Function.update_self ..⟩
    · exact ⟨b, (Function.update_of_ne hn _ _).trans hb⟩
  | _ => exact ⟨b, hb⟩

/-- **Every call keeps** that. -/
theorem Step.sane (hs : Step z σ c σ') (hsane : σ.Sane) : σ'.Sane := by
  have hkept : ∀ name b, σ.files name = some b → ∃ b', σ'.files name = some b' :=
    fun _ _ hb => hs.kept hb
  cases hs with
  | @openFile p name fd h hfd hh =>
    intro q j i hi
    have hset := hi
    rw [setDescriptor_descriptor] at hset
    split_ifs at hset with hq
    · obtain rfl := Option.some.inj hset
      exact ⟨⟨name, 0⟩, _, hi, Function.update_self .., Function.update_self ..⟩
    · have hih : i ≠ h := by
        rintro rfl
        exact hh q j hset
      obtain ⟨g, b, hg⟩ := hsane q j i hset
      obtain ⟨b', hb'⟩ := hkept _ _ hg.file
      exact ⟨g, b', hi, (Function.update_of_ne hih _ _).trans hg.opened, hb'⟩
  | read hb => exact hsane.moved hb hkept rfl rfl
  | write hb => exact hsane.moved hb hkept rfl rfl
  | seek hb hpos => exact hsane.moved hb hkept rfl rfl
  | close hd =>
    intro q j i hi
    have hset := hi
    rw [setDescriptor_descriptor] at hset
    split_ifs at hset
    obtain ⟨g, b, hg⟩ := hsane q j i hset
    exact ⟨g, b, hi, hg.opened, hg.file⟩
  | @fork p child hc =>
    intro q j i hi
    obtain ⟨r, hr⟩ : ∃ r, σ.descriptor r j = some i := by
      by_cases hq : q = child
      · subst hq
        exact ⟨p, by rw [← hi]; exact (congrFun (Function.update_self ..) j).symm⟩
      · exact ⟨q, by rw [← hi]; exact (congrFun (Function.update_of_ne hq _ _) j).symm⟩
    obtain ⟨g, b, hg⟩ := hsane r j i hr
    exact ⟨g, b, hi, hg.opened, hg.file⟩
  | print hb => exact hsane

/-! ### What one writes the other reads -/

/-- The call is a write to the file. -/
def writesTo (σ : Store π κ α) (name : κ) (c : StoreCall π κ α) : Prop :=
  ∃ p fd buf count h f, c = .write p fd buf count ∧ σ.descriptor p fd = some h ∧
    σ.opened h = some f ∧ f.name = name

/-- **Only a write to a file** changes it. -/
theorem Step.unwritten (hs : Step z σ c σ') (hb : σ.files name = some b) (hno : ¬σ.writesTo name c) :
    σ'.files name = some b := by
  cases hs with
  | @openFile p name' fd h hfd hh =>
    by_cases hn : name = name'
    · subst hn
      change Function.update _ _ _ _ = _
      rw [Function.update_self, hb]
      rfl
    · exact (Function.update_of_ne hn _ _).trans hb
  | @write p fd h f b' buf hb' =>
    have hn : name ≠ f.name := by
      rintro rfl
      exact hno ⟨p, fd, buf, buf.length, h, f, rfl, hb'.descriptor, hb'.opened, rfl⟩
    exact (Function.update_of_ne hn _ _).trans hb
  | _ => exact hb

/-- A call that is no write to the file. -/
def Quiet (z : α) (name : κ) (σ : Store π κ α) (c : StoreCall π κ α) (σ' : Store π κ α) : Prop :=
  Step z σ c σ' ∧ ¬σ.writesTo name c

/-- **What was written to a file** is what a read at that place returns, by whatever process and
through whatever descriptor, if nobody has written to the file in between. -/
theorem passes {count : ℕ} (hb : σ.Behind p fd h f b) (hw : Step z σ (.write p fd buf count) σ1)
    (ht : Trace (Quiet z f.name) σ1 cs σ2) (hg : σ2.Behind q j i g b') (hname : g.name = f.name)
    (hpos : g.pos = f.pos) (hr : Step z σ2 (.read q j buf.length out) σ3) : out = buf := by
  cases hw with
  | write hb1 =>
    obtain ⟨-, rfl, rfl⟩ := hb.eq hb1
    have hfile : σ2.files f.name = some (ArrayFile.overwrite z b f.pos buf) :=
      ht.invariant (P := fun σ => σ.files f.name = some (ArrayFile.overwrite z b f.pos buf))
        (Function.update_self ..) fun _ _ _ hb hs => hs.1.unwritten hb hs.2
    cases hr with
    | read hg1 =>
      obtain ⟨-, rfl, rfl⟩ := hg.eq hg1
      obtain rfl : b' = ArrayFile.overwrite z b f.pos buf := by
        apply Option.some.inj
        rw [← hg.file, hname, hfile]
      rw [hpos, ArrayFile.read_overwrite]

end

end Store

end OsLab.Lib
