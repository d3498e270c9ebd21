import OsLab.Kernel.Step

/-!
# What the file calls leave alone

The system calls on files and listings (`write_aux`, `lseek_aux`, `open_aux`, `close_aux`,
`remove_aux`, `ls_aux`, `cat_aux`, and `read_aux` on a file) touch the caller's descriptors and the
`eax` of its frame, the open-file table, user memory, the file system and the screen. `FileCall`
says so once, and `doSyscall_fileCall` for all of them; what each call does within these bounds is
the matter of the modules on files. A `stdin` read (`Polled`) is different: it can leave the process
waiting.
-/

namespace OsLab

open OsLab.Lib

variable {k k' : Kernel}

/-- `k'` differs from `k` in the caller's `eax` and in the fields listed under `rest` only. -/
structure FileCall (k k' : Kernel) : Prop where
  rest : k' = { k with
    pcb := k'.pcb
    kmem := k'.kmem
    sysFileTable := k'.sysFileTable
    sysFileNum := k'.sysFileNum
    mem := k'.mem
    fs := k'.fs
    path := k'.path
    screen := k'.screen }
  pcb : ∀ p, k'.pcb p =
    { k.pcb p with fpNum := (k'.pcb p).fpNum, filepointer := (k'.pcb p).filepointer }
  others : ∀ p ≠ k.current, k'.pcb p = k.pcb p
  frame : ∀ p o, ¬(p = k.current ∧ o = MAX_STACK_SIZE + TfField.eax.idx) → k'.kmem p o = k.kmem p o

namespace FileCall

/-- Nothing has been called. -/
theorem refl (k : Kernel) : FileCall k k := ⟨rfl, fun _ => rfl, fun _ _ => rfl, fun _ _ _ => rfl⟩

/-- The current process stays. -/
theorem current (h : FileCall k k') : k'.current = k.current := by rw [h.rest]

/-- The count of processes stays. -/
theorem pNum (h : FileCall k k') : k'.pNum = k.pNum := by rw [h.rest]

/-- The kernel stack pointer stays. -/
theorem esp0 (h : FileCall k k') : k'.esp0 = k.esp0 := by rw [h.rest]

/-- The semaphores stay. -/
theorem sem (h : FileCall k k') : k'.sem = k.sem := by rw [h.rest]

/-- The read that waits stays. -/
theorem waiting (h : FileCall k k') : k'.waiting = k.waiting := by rw [h.rest]

/-- The mark of a waiting read stays. -/
theorem intrNesting (h : FileCall k k') : k'.intrNesting = k.intrNesting := by rw [h.rest]

/-- The state of every process stays. -/
theorem state (h : FileCall k k') (p : Node) : (k'.pcb p).state = (k.pcb p).state := by
  rw [h.pcb p]

/-- The pid of every process stays. -/
theorem pid (h : FileCall k k') (p : Node) : (k'.pcb p).pid = (k.pcb p).pid := by rw [h.pcb p]

/-- The lists stay. -/
theorem next (h : FileCall k k') : k'.next = k.next := funext fun p => by
  rw [Kernel.next, Kernel.next, h.pcb p]

/-- One call after another. -/
theorem trans {k'' : Kernel} (h : FileCall k k') (h' : FileCall k' k'') : FileCall k k'' where
  rest := by rw [h'.rest, h.rest]
  pcb p := by rw [h'.pcb, h.pcb]
  others p hp := by rw [h'.others p (h.current ▸ hp), h.others p hp]
  frame p o hpo := by rw [h'.frame p o (h.current ▸ hpo), h.frame p o hpo]

/-- The answer goes to `eax`. -/
theorem setEax (k : Kernel) (v : ℤ) : FileCall k (k.setEax v) where
  rest := rfl
  pcb _ := rfl
  others _ _ := rfl
  frame p o hpo := by
    by_cases hp : p = k.current
    · subst hp
      have ho : o ≠ MAX_STACK_SIZE + TfField.eax.idx := fun ho => hpo ⟨rfl, ho⟩
      simp [ho]
    · simp [hp]

/-- A change of the caller's descriptors. -/
theorem setPcb (k : Kernel) (f : PCB → PCB)
    (hf : ∀ c, f c = { c with fpNum := (f c).fpNum, filepointer := (f c).filepointer }) :
    FileCall k (k.setPcb k.current f) where
  rest := rfl
  pcb p := by
    by_cases hp : p = k.current
    · subst hp
      rw [Kernel.setPcb_pcb, Function.update_self]
      exact hf _
    · simp [hp]
  others p hp := by simp [hp]
  frame _ _ _ := rfl

/-- A change outside the PCBs. -/
theorem of_rest (h : k' = { k with
    sysFileTable := k'.sysFileTable
    sysFileNum := k'.sysFileNum
    mem := k'.mem
    fs := k'.fs
    path := k'.path
    screen := k'.screen }) : FileCall k k' where
  rest := by rw [h]
  pcb p := by rw [h]
  others p _ := by rw [h]
  frame p o _ := by rw [h]

end FileCall

/-! ### The calls -/

/-- The first part of `open_aux`: the lookup, and a creation where the file is missing. -/
theorem openLookup_fileCall {path : List UInt8} {r : ℤ × Kernel}
    (h : openLookup path k = .ok r) : FileCall k r.2 := by
  simp only [openLookup, bind_eq_ok] at h
  obtain ⟨e, -, q, -, i, -, h⟩ := h
  obtain rfl := Except.ok.inj h
  exact .of_rest rfl

/-- Its second part: a slot and a descriptor. -/
theorem openSlot_fileCall {index : ℤ} (h : openSlot index k = .ok k') : FileCall k k' := by
  simp only [openSlot, bind_eq_ok] at h
  obtain ⟨-, -, h⟩ := h
  obtain rfl := Except.ok.inj h
  set k1 := k.setFile (getAvlSystemFile k).toNat fun _ => ⟨index, 1, 0⟩ with hk1
  have h1 : FileCall k k1 := .of_rest rfl
  set k2 := k1.setFilepointer (getAvlFilepointer k).toNat (getAvlSystemFile k) with hk2
  have h2 : FileCall k1 k2 := .setPcb k1 _ fun _ => rfl
  have h3 : FileCall k2 (k2.setEax (getAvlFilepointer k)) := .setEax k2 _
  set k4 : Kernel := { k2.setEax (getAvlFilepointer k) with sysFileNum := k.sysFileNum + 1 } with hk4
  have h4 : FileCall (k2.setEax (getAvlFilepointer k)) k4 := .of_rest rfl
  have h5 : FileCall k4 (k4.setPcb k4.current fun c => { c with fpNum := c.fpNum + 1 }) :=
    .setPcb k4 _ fun _ => rfl
  exact h1.trans (h2.trans (h3.trans (h4.trans h5)))

/-- `open_aux` keeps to the fields of a call on files. -/
theorem openAux_fileCall {path : ℕ} (h : openAux path k = .ok k') : FileCall k k' := by
  simp only [openAux, bind_eq_ok] at h
  obtain ⟨_, -, r, hr, h⟩ := h
  exact (openLookup_fileCall hr).trans (openSlot_fileCall h)

/-- So does `close_aux`. -/
theorem closeAux_fileCall {fd : ℤ} (h : closeAux fd k = .ok k') : FileCall k k' := by
  obtain ⟨s, -, h⟩ := bind_eq_ok.mp h
  obtain rfl := Except.ok.inj h
  set k1 := k.setFile s fun f => { f with linkNum := i32 (f.linkNum - 1) } with hk1
  have h1 : FileCall k k1 := .of_rest rfl
  have hfp : ∀ k2, FileCall k1 k2 → FileCall k1 ((k2.setFilepointer fd.toNat (-1)).setPcb
      k2.current fun c => { c with fpNum := c.fpNum - 1 }) := fun k2 h2 =>
    h2.trans (.trans (.setPcb k2 _ fun _ => rfl) (.setPcb (k2.setFilepointer fd.toNat (-1))
      (fun c => { c with fpNum := c.fpNum - 1 }) fun _ => rfl))
  refine h1.trans (.trans (hfp _ ?_) (.setEax _ 0))
  split_ifs
  · exact .of_rest rfl
  · exact .refl k1

/-- So does `remove_aux`. -/
theorem removeAux_fileCall {path : ℕ} (h : removeAux path k = .ok k') : FileCall k k' := by
  simp only [removeAux, bind_eq_ok] at h
  obtain ⟨_, -, r, -, h⟩ := h
  obtain rfl := Except.ok.inj h
  exact .trans (.of_rest rfl) (.setEax _ 0)

/-- So does `write_aux`. -/
theorem writeAux_fileCall {fd : ℤ} {buf : ℕ} {len : ℤ} (h : writeAux fd buf len k = .ok k') :
    FileCall k k' := by
  unfold writeAux at h
  split_ifs at h
  · obtain ⟨s, -, h⟩ := bind_eq_ok.mp h
    obtain rfl := Except.ok.inj h
    exact .of_rest rfl
  · obtain ⟨s, -, h⟩ := bind_eq_ok.mp h
    obtain ⟨r, -, h⟩ := bind_eq_ok.mp h
    obtain rfl := Except.ok.inj h
    exact .trans (.trans (.of_rest rfl) (.setEax { k with fs := r.1 } r.2)) (.of_rest rfl)

/-- So does `read_aux` on a file. -/
theorem readFile_fileCall {fd : ℤ} {buf : ℕ} {len : ℤ} (h : readFile fd buf len k = .ok k') :
    FileCall k k' := by
  simp only [readFile, bind_eq_ok] at h
  obtain ⟨s, -, bytes, -, d, -, h⟩ := h
  obtain rfl := Except.ok.inj h
  set k1 : Kernel := { k with mem := storeBytes k.mem buf bytes }
  exact .trans (.trans (.of_rest rfl) (.setEax k1 bytes.length)) (.of_rest rfl)

/-- So does `lseek_aux`. -/
theorem lseekAux_fileCall {fd offset whence : ℤ} (h : lseekAux fd offset whence k = .ok k') :
    FileCall k k' := by
  unfold lseekAux at h
  split_ifs at h
  · obtain ⟨s, -, h⟩ := bind_eq_ok.mp h
    obtain rfl := Except.ok.inj h
    exact .of_rest rfl
  · obtain ⟨s, -, h⟩ := bind_eq_ok.mp h
    obtain rfl := Except.ok.inj h
    exact .of_rest rfl
  · obtain ⟨s, -, h⟩ := bind_eq_ok.mp h
    obtain ⟨d, -, h⟩ := bind_eq_ok.mp h
    obtain rfl := Except.ok.inj h
    exact .of_rest rfl

/-- So does `ls_aux`. -/
theorem lsAux_fileCall {path : ℕ} (h : lsAux path k = .ok k') : FileCall k k' := by
  simp only [lsAux, bind_eq_ok] at h
  obtain ⟨_, -, _, -, _, -, _, -, _, -, h⟩ := h
  obtain rfl := Except.ok.inj h
  exact .of_rest rfl

/-- So does `cat_aux`. -/
theorem catAux_fileCall {path : ℕ} (h : catAux path k = .ok k') : FileCall k k' := by
  simp only [catAux, bind_eq_ok] at h
  obtain ⟨_, -, _, -, _, -, _, -, _, -, h⟩ := h
  obtain rfl := Except.ok.inj h
  exact .of_rest rfl

/-- The calls that `FileCall` is about. -/
def Syscall.onFiles : Syscall → Prop
  | .read fd _ _ => fd ≠ stdin
  | .write .. | .seek .. | .openPath .. | .close _ | .remove _ | .ls _ | .cat _ => True
  | _ => False

/-- **The file calls** leave the processes and their frames alone. -/
theorem doSyscall_fileCall {c : Syscall} (hc : c.onFiles) (h : doSyscall k c = .ok k') :
    FileCall k k' := by
  cases c with
  | read fd buf len =>
    rw [doSyscall, readAux, if_neg hc] at h
    exact readFile_fileCall h
  | write fd buf len => exact writeAux_fileCall h
  | seek fd offset whence => exact lseekAux_fileCall h
  | openPath path flags => exact openAux_fileCall h
  | close fd => exact closeAux_fileCall h
  | remove path => exact removeAux_fileCall h
  | ls path => exact lsAux_fileCall h
  | cat path => exact catAux_fileCall h
  | _ => exact hc.elim

/-! ### Waiting for the keyboard -/

/-- `k'` is `k` after a round of `wait_for_keyboard`: the read goes on waiting, or it is done. -/
structure Polled (k k' : Kernel) : Prop where
  rest : k' = { k with
    intrNesting := k'.intrNesting
    waiting := k'.waiting
    mem := k'.mem
    bufOut := k'.bufOut }
  nesting : k'.intrNesting = k'.waiting.isSome

/-- A round of a read of `stdin` is one of the two. -/
theorem pollRead_polled {buf : ℕ} {len : ℤ} (h : pollRead buf len k = .ok k') : Polled k k' := by
  unfold pollRead at h
  split_ifs at h
  · obtain rfl := Except.ok.inj h
    exact ⟨rfl, rfl⟩
  · obtain ⟨keys, -, h⟩ := bind_eq_ok.mp h
    obtain rfl := Except.ok.inj h
    exact ⟨rfl, rfl⟩

/-- The keyboard handler touches the screen and the key buffer. -/
theorem keyboardHandle_rest {scanCode : ℕ} (h : keyboardHandle scanCode k = .ok k') :
    k' = { k with screen := k'.screen, key := k'.key, bufIn := k'.bufIn } := by
  simp only [keyboardHandle] at h
  split_ifs at h
  · obtain ⟨s, -, h⟩ := bind_eq_ok.mp h
    obtain rfl := Except.ok.inj h
    rfl
  · obtain ⟨s, -, h⟩ := bind_eq_ok.mp h
    cases h
  · obtain rfl := Except.ok.inj h
    rfl

end OsLab
