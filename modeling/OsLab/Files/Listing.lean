import OsLab.Files.Accounting

/-!
# What `ls_aux` prints

The loop of `ls_aux` runs over the slots from 2 on and counts the ones in use, starting at 2 for the
entries `.` and `..`. Where it is from there on is an equation between the count and the slots
behind the index: `cont` and the slots in use that are still to come make `filenum`.

* `scanDir_prints`: the loop from any slot, as one text.
* `lsAux_lists`: **`ls_aux` prints the names of all slots in use from 2 on**, each once, in slot
  order and with a tab behind it, and a newline at the end; it never gets to slot 1024.
-/

namespace OsLab

open OsLab.Lib

variable {d : Inode} {i n cont : ℕ} {s : Screen}

/-- The names in the slots `i` to `i + n - 1` that are in use, each with a tab behind it. -/
def tabbedNames (d : Inode) (i n : ℕ) : List UInt8 :=
  ((List.range' i n).filter fun j => decide (d.Used j)).flatMap fun j => d.nameAt j ++ [9]

/-- The listing of a directory. -/
def listing (d : Inode) : List UInt8 := tabbedNames d 2 (NR_DIRDATA - 2) ++ [10]

/-- One slot more is listed. -/
theorem tabbedNames_succ (d : Inode) (i n : ℕ) : tabbedNames d i (n + 1) =
    (if d.Used i then d.nameAt i ++ [9] else []) ++ tabbedNames d (i + 1) n := by
  unfold tabbedNames
  rw [List.range'_succ]
  by_cases hu : d.Used i <;> simp [hu]

/-- Nothing is printed for slots that are all free. -/
theorem tabbedNames_eq_nil (h : ∀ j, i ≤ j → j < i + n → ¬d.Used j) : tabbedNames d i n = [] := by
  induction n generalizing i with
  | zero => rfl
  | succ n ih =>
    rw [tabbedNames_succ, if_neg (h i le_rfl (by omega)), ih fun j h1 h2 => h j (by omega) (by omega)]
    rfl

/-- The body of the loop of `ls_aux`. -/
abbrev printName (_ : ℕ) (name : List UInt8) (s : Screen) : Except Stop (Bool × Screen) := do
  let s ← printQ [37, 115, 9] (fun _ => ⟨0, name⟩) s
  .ok (false, s)

/-- **The loop of `ls_aux`** over the next `n` slots: the induction is on their number, and the
count says how many of them are in use. -/
theorem scanDir_prints (hcont : cont + d.usedBelow (i + n) = d.filenum.toNat + d.usedBelow i)
    (hname : ∀ j, i ≤ j → j < i + n → d.Used j → ∃ str, d.slotName j = .ok str) :
    scanDir d printName n i cont s = screenPuts s (tabbedNames d i n) := by
  induction n generalizing i cont s with
  | zero =>
    rw [scanDir, if_neg (by rw [Nat.add_zero] at hcont; omega)]
    rfl
  | succ n ih =>
    have hstep := d.usedBelow_succ (n := i)
    have hrest : i + 1 + n = i + (n + 1) := by omega
    have hnext : ∀ j, i + 1 ≤ j → j < i + 1 + n → d.Used j → ∃ str, d.slotName j = .ok str :=
      fun j h1 h2 hu => hname j (by omega) (by omega) hu
    rw [scanDir]
    by_cases hlt : cont < d.filenum.toNat
    · rw [if_pos hlt, tabbedNames_succ]
      by_cases hu : d.Used i
      · obtain ⟨str, hstr⟩ := hname i le_rfl (by omega) hu
        have hne : strcmp str [] ≠ 0 := fun h => (Inode.slotName_used hstr).mp hu (strcmp_eq_zero.mp h)
        rw [if_pos hu] at hstep
        rw [hstr, ok_bind, if_pos hne, if_pos hu, Inode.nameAt_of_slotName hstr, printName, printQ_name,
          screenPuts_append s (str ++ [9])]
        cases screenPuts s (str ++ [9]) with
        | error e => rfl
        | ok t =>
          simp only [ok_bind, Bool.false_eq_true, if_false]
          exact ih (by rw [hrest]; omega) hnext
      · have heq : strcmp [] [] = 0 := rfl
        rw [if_neg hu] at hstep
        rw [Inode.slotName_of_not_used hu, ok_bind, if_neg (not_not.mpr heq), if_neg hu]
        exact ih (by rw [hrest]; omega) hnext
    · -- the count is reached: the slots that are left are free
      rw [if_neg hlt, tabbedNames_eq_nil fun j h1 h2 =>
        Inode.not_used_of_usedBelow (m := i + (n + 1)) (n := i) (by omega) h1 h2]
      rfl

/-- What `ls_aux` does in a directory with two entries in slots 0 and 1 and any pattern of free slots
behind them. -/
theorem lsAux_eq {k : Kernel} {path : ℕ} {p : List UInt8} {r : ℤ × PathBuf}
    (hpath : cstring k path = .ok p) (hr : findCurrentDirPos k.fs p k.path = .ok r)
    (hdir : k.fs.inodeAt r.1 = .ok d) (h0 : d.Used 0) (h1 : d.Used 1) (hcount : d.Counted)
    (hname : ∀ j < NR_DIRDATA, d.Used j → ∃ str, d.slotName j = .ok str) :
    lsAux path k = (screenPuts k.screen (listing d) >>= fun s =>
      .ok { k with path := r.2, screen := s }) := by
  have htwo : d.usedBelow 2 = 2 := Inode.usedBelow_of_used fun j hj => by
    interval_cases j
    · exact h0
    · exact h1
  have hscan : scanDir d printName (NR_DIRDATA - 2) 2 2 k.screen =
      screenPuts k.screen (tabbedNames d 2 (NR_DIRDATA - 2)) := by
    refine scanDir_prints ?_ fun j _ hj => hname j hj
    have hall : 2 + (NR_DIRDATA - 2) = NR_DIRDATA := rfl
    rw [hall, htwo, hcount]
    omega
  rw [lsAux, hpath, ok_bind, hr, ok_bind, hdir, ok_bind, hscan, listing, screenPuts_append]
  cases screenPuts k.screen (tabbedNames d 2 (NR_DIRDATA - 2)) with
  | error e => rfl
  | ok s => simp only [ok_bind, printQ_newline]

/-- **Listing a directory** with two entries in slots 0 and 1 and any pattern of free slots behind
them: the names of the other slots in use go to the screen, in slot order, each followed by a tab,
and then a newline. -/
theorem lsAux_lists {k : Kernel} {path : ℕ} {p : List UInt8} {r : ℤ × PathBuf}
    (hpath : cstring k path = .ok p) (hr : findCurrentDirPos k.fs p k.path = .ok r)
    (hdir : k.fs.inodeAt r.1 = .ok d) (h0 : d.Used 0) (h1 : d.Used 1) (hcount : d.Counted)
    (hname : ∀ j < NR_DIRDATA, d.Used j → ∃ str, d.slotName j = .ok str) :
    lsAux path k = (screenPuts k.screen (listing d) >>= fun s =>
        .ok { k with path := r.2, screen := s }) ∧
      lsAux path k ≠ .error (.wild .dirdata) := by
  have hrun := lsAux_eq hpath hr hdir h0 h1 hcount hname
  refine ⟨hrun, fun h => ?_⟩
  rw [hrun, ← printString_screenPut] at h
  rcases bind_eq_error.mp h with h | ⟨s, -, h⟩
  · have hvideo := printString_error (P := (· = .wild .video)) (fun c s e => screenPut_error) h
    cases hvideo
  · cases h

/-- A root directory with a file name in slot 3 and none in slot 2, and the path `"/"` in memory. -/
def holeKernel : Kernel :=
  { Kernel.bss Image.blank with
    mem := fun a => if a = 0x200300 then slash else 0
    fs := Image.blank.fs.setInode 0
      { (Image.blank.fs.inode 0).entry 3 1 [97] with size := (Image.blank.fs.inode 0).size + 1 } }

/-- A directory with a hole is listed without leaving its block. -/
theorem holeKernel_lists : lsAux 0x200300 holeKernel ≠ .error (.wild .dirdata) := by
  have hused : ∀ j, ((Image.blank.fs.inode 0).entry 3 1 [97]).Used j ↔ j = 3 ∨ j = 1 ∨ j = 0 := by
    intro j
    rw [Inode.used_entry (by decide) (by decide), blank_used]
  have hdir : holeKernel.fs.inodeAt 0 =
      .ok { (Image.blank.fs.inode 0).entry 3 1 [97] with size := (Image.blank.fs.inode 0).size + 1 } :=
    rfl
  refine (lsAux_lists (p := [slash]) (r := (0, holeKernel.path)) ?_ rfl hdir
    ((hused 0).mpr (by simp)) ((hused 1).mpr (by simp))
    (blank_counted.entry (by decide) (by decide) (by decide) fun h => ?_) fun j _ hj => ?_).2
  · unfold cstring
    have hloop : cstringLoop holeKernel.mem (2 ^ 32) 0x200300 = some [slash] := by
      decide +kernel
    rw [hloop]
  · exact absurd (blank_used.mp h) (by decide)
  · have hslot : ((Image.blank.fs.inode 0).entry 3 1 [97]).slotName j = _ :=
      Inode.slotName_entry (by decide) (by decide) j
    rw [blank_slotName] at hslot
    rcases (hused j).mp hj with rfl | rfl | rfl
    · exact ⟨[97], hslot⟩
    · exact ⟨[dot, dot], hslot⟩
    · exact ⟨[dot], hslot⟩

end OsLab
