import OsLab.Scheduler.Sound

/-!
# Events that are not about files

`SameFiles` says that two kernels have the same descriptors, the same `sysFileTable` and the same
file system. Every event that is not one of the calls on files keeps these
(`sameFiles_of_offFiles`): the scheduler, the semaphores and the keyboard have nothing to do with
them (`sameFiles_run` for a whole run). `fork_aux`, which hands descriptors on, is not among them.
-/

namespace OsLab

open OsLab.Lib

variable {k k' : Kernel} {Q : Queues} {e : Event}

/-- The file tables and the file system are the same. -/
structure SameFiles (k k' : Kernel) : Prop where
  filepointer : ∀ p, (k'.pcb p).filepointer = (k.pcb p).filepointer
  fpNum : ∀ p, (k'.pcb p).fpNum = (k.pcb p).fpNum
  sysFileTable : k'.sysFileTable = k.sysFileTable
  sysFileNum : k'.sysFileNum = k.sysFileNum
  fs : k'.fs = k.fs

namespace SameFiles

/-- Rescheduling leaves the files. -/
theorem of_rescheduled (h : Rescheduled k k') : SameFiles k k' :=
  ⟨h.filepointer, h.fpNum, h.sysFileTable, h.sysFileNum, h.fs⟩

/-- So does a switch. -/
theorem of_switched (h : Switched k k') : SameFiles k k' :=
  ⟨h.filepointer, h.fpNum, h.sysFileTable, h.sysFileNum, h.fs⟩

/-- One step after another. -/
theorem trans {k'' : Kernel} (h : SameFiles k k') (h' : SameFiles k' k'') : SameFiles k k'' where
  filepointer p := by rw [h'.filepointer, h.filepointer]
  fpNum p := by rw [h'.fpNum, h.fpNum]
  sysFileTable := by rw [h'.sysFileTable, h.sysFileTable]
  sysFileNum := by rw [h'.sysFileNum, h.sysFileNum]
  fs := by rw [h'.fs, h.fs]

/-- A change outside the PCBs and the file tables. -/
theorem of_eq (hp : k'.pcb = k.pcb) (ht : k'.sysFileTable = k.sysFileTable)
    (hn : k'.sysFileNum = k.sysFileNum) (hf : k'.fs = k.fs) : SameFiles k k' :=
  ⟨fun _ => by rw [hp], fun _ => by rw [hp], ht, hn, hf⟩

/-- A change of a PCB's other fields. -/
theorem setPcb (k : Kernel) (p : Node) (f : PCB → PCB)
    (hf : ∀ c, (f c).filepointer = c.filepointer ∧ (f c).fpNum = c.fpNum) :
    SameFiles k (k.setPcb p f) where
  filepointer q := by
    by_cases hq : q = p
    · subst hq; simpa using (hf _).1
    · simp [hq]
  fpNum q := by
    by_cases hq : q = p
    · subst hq; simpa using (hf _).2
    · simp [hq]
  sysFileTable := rfl
  sysFileNum := rfl
  fs := rfl

end SameFiles

/-- The events that are not about files: reads of `stdin` and writes to `stdout` are among them. -/
def Event.offFiles : Event → Bool
  | .sys (.read fd _ _) => fd = stdin
  | .sys (.write fd _ _) => fd = stdout
  | .sys (.seek ..) | .sys (.openPath ..) | .sys (.close _) | .sys (.remove _) | .sys .fork => false
  | _ => true

/-- A round of a read leaves the files. -/
theorem sameFiles_of_polled (h : Polled k k') : SameFiles k k' :=
  .of_eq (by rw [h.rest]) (by rw [h.rest]) (by rw [h.rest]) (by rw [h.rest])

/-- So does the end of a read. -/
theorem sameFiles_of_resume (h : resume k = .ok k') : SameFiles k k' :=
  .of_eq (by rw [resume_rest h]) (by rw [resume_rest h]) (by rw [resume_rest h]) (by rw [resume_rest h])

/-- **An event off files** leaves the files. -/
theorem sameFiles_of_offFiles (h : Sound k Q) (he : e.offFiles) (hk : step k e = .ok k') :
    SameFiles k k' := by
  cases does_of_step h hk with
  | timer hr hres => exact .of_switched (resume_switched (.of_rescheduled hr) hres)
  | store a b => exact .of_eq rfl rfl rfl rfl
  | key hkey hres =>
    have hrest := keyboardHandle_rest hkey
    apply SameFiles.trans _ (sameFiles_of_resume hres)
    exact .of_eq (by rw [hrest]) (by rw [hrest]) (by rw [hrest]) (by rw [hrest])
  | exit _ hr =>
    refine SameFiles.trans ?_ (.of_rescheduled hr)
    exact .of_eq rfl rfl rfl rfl
  | sleep hr => exact .of_rescheduled hr
  | fork nx => cases he
  | semInit a v nx =>
    have h1 := SameFiles.setPcb k k.current (fun c => { c with psem := some (initAddr a k) })
      fun _ => ⟨rfl, rfl⟩
    exact ⟨h1.filepointer, h1.fpNum, rfl, rfl, rfl⟩
  | semDestroy a =>
    have h1 : SameFiles k (k.setEax 0) := .of_eq rfl rfl rfl rfl
    exact h1.trans (.setPcb _ k.current (fun c => { c with psem := none }) fun _ => ⟨rfl, rfl⟩)
  | semWait hr =>
    refine SameFiles.trans ?_ (.of_rescheduled hr)
    exact .of_eq rfl rfl rfl rfl
  | semPost hr =>
    refine SameFiles.trans ?_ (.of_rescheduled hr)
    exact .of_eq rfl rfl rfl rfl
  | readStdin hp => exact sameFiles_of_polled hp
  | @file c _ hc _ =>
    simp only [step] at hk
    split_ifs at hk
    cases c with
    | read fd buf len => exact absurd (of_decide_eq_true he) hc
    | write fd buf len =>
      rw [doSyscall, writeAux, if_pos (of_decide_eq_true he)] at hk
      obtain ⟨s, -, hk⟩ := bind_eq_ok.mp hk
      obtain rfl := Except.ok.inj hk
      exact .of_eq rfl rfl rfl rfl
    | ls path =>
      simp only [doSyscall, lsAux, bind_eq_ok] at hk
      obtain ⟨_, -, _, -, _, -, _, -, _, -, hk⟩ := hk
      obtain rfl := Except.ok.inj hk
      exact .of_eq rfl rfl rfl rfl
    | cat path =>
      simp only [doSyscall, catAux, bind_eq_ok] at hk
      obtain ⟨_, -, _, -, _, -, _, -, _, -, hk⟩ := hk
      obtain rfl := Except.ok.inj hk
      exact .of_eq rfl rfl rfl rfl
    | _ => simp_all [Event.offFiles, Syscall.onFiles]

/-- Start-up takes the file system that was loaded. -/
theorem fs_boot {img : Image} (hb : boot img = .ok k) : k.fs = img.fs := by
  obtain ⟨-, nx, rfl⟩ := placed_boot hb
  rfl

/-- **A run of such events** after start-up leaves the files as they were. -/
theorem sameFiles_run {img : Image} {es : List Event} (hb : boot img = .ok k)
    (hr : run step k es = .ok k') (hes : ∀ e ∈ es, e.offFiles) : SameFiles k k' := by
  have hreach : Reaches step (fun _ e => e.offFiles) k es k' := .of_run hr hes
  have hstart : ∃ Q, Sound k Q ∧ SameFiles k k := ⟨_, sound_boot hb, .of_eq rfl rfl rfl rfl⟩
  obtain ⟨-, -, hsame⟩ := hreach.invariant (P := fun _ k1 => ∃ Q, Sound k1 Q ∧ SameFiles k k1) hstart
    fun _ k1 k2 e _ ⟨Q, hs, hsame⟩ he hk =>
      ⟨_, (sound_step hs hk).1, hsame.trans (sameFiles_of_offFiles hs he hk)⟩
  exact hsame

end OsLab
