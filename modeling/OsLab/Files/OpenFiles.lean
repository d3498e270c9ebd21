import OsLab.Files.Descriptors
import OsLab.Scheduler.ForkSlots

/-!
# Open files in every run

`FilesKept` adds to the counts of `FilesCounted` that a free process has no open file, which is what
a fork needs. Every event keeps it (`filesKept_step`) but one: `exit_aux` changes no descriptor and
no slot, so the process that exits has to have closed all of its files before.

* `files_counted`: the counts in every run, and that a slot in use is not handed out.
* `closesFirst`: the runs of opens, closes, forks and exits in which processes close what they have
  open, and no other descriptor, and have closed all of it when they exit.
* `returned_of_closed`: the counts of such a run from the point of view of the live processes, and
  that its calls stay inside the tables (`FilesKept.not_wild`). What an exit leaves behind
  (`exit_keeps_files`) is given back by nobody.
* `exit_leaks`: the shortest run that leaves a file open for good.
-/

namespace OsLab

open OsLab.Lib

variable {k k' : Kernel} {Q : Queues} {e : Event} {es : List Event} {img : Image}

/-! ### Reads, writes and seeks -/

/-- `k'` has another position `o` for the open file in slot `s`. -/
structure Moved (k k' : Kernel) (s : ℕ) (o : ℤ) : Prop where
  pcb : k'.pcb = k.pcb
  sysFileTable : k'.sysFileTable =
    Function.update k.sysFileTable s { k.sysFileTable s with offset := o }
  sysFileNum : k'.sysFileNum = k.sysFileNum

/-- The calls that move the position of an open file. -/
def Event.moves : Event → Bool
  | .sys (.read fd _ _) => fd ≠ stdin
  | .sys (.write fd _ _) => fd ≠ stdout
  | .sys (.seek ..) => true
  | _ => false

/-- They move that of a file the caller has open. -/
theorem moved_of_moves (he : e.moves) (hk : step k e = .ok k') :
    ∃ fd s o, slotOf fd k = .ok s ∧ Moved k k' s o := by
  cases e with
  | timer => cases he
  | key _ => cases he
  | store a b => cases he
  | sys c =>
    simp only [step] at hk
    split_ifs at hk
    cases c with
    | read fd buf len =>
      rw [doSyscall, readAux, if_neg (of_decide_eq_true he)] at hk
      simp only [readFile, bind_eq_ok] at hk
      obtain ⟨s, hs, bytes, -, d, -, hk⟩ := hk
      obtain rfl := Except.ok.inj hk
      exact ⟨fd, s, _, hs, rfl, rfl, rfl⟩
    | write fd buf len =>
      rw [doSyscall, writeAux, if_neg (of_decide_eq_true he)] at hk
      simp only [bind_eq_ok] at hk
      obtain ⟨s, hs, r, -, hk⟩ := hk
      obtain rfl := Except.ok.inj hk
      exact ⟨fd, s, _, hs, rfl, rfl, rfl⟩
    | seek fd offset whence =>
      simp only [doSyscall, lseekAux] at hk
      split_ifs at hk
      · obtain ⟨s, hs, hk⟩ := bind_eq_ok.mp hk
        obtain rfl := Except.ok.inj hk
        exact ⟨fd, s, _, hs, rfl, rfl, rfl⟩
      · obtain ⟨s, hs, hk⟩ := bind_eq_ok.mp hk
        obtain rfl := Except.ok.inj hk
        exact ⟨fd, s, _, hs, rfl, rfl, rfl⟩
      · obtain ⟨s, hs, hk⟩ := bind_eq_ok.mp hk
        obtain ⟨d, -, hk⟩ := bind_eq_ok.mp hk
        obtain rfl := Except.ok.inj hk
        exact ⟨fd, s, _, hs, rfl, rfl, rfl⟩
    | _ => cases he

/-- A position that moves leaves the counts. -/
theorem FilesCounted.moved {s : ℕ} {o : ℤ} (h : FilesCounted k) (hs : refs k s ≠ 0)
    (hm : Moved k k' s o) : FilesCounted k' := by
  have hd : k'.descriptor = k.descriptor := by
    unfold Kernel.descriptor
    rw [hm.pcb]
  have hrefs : ∀ t, refs k' t = refs k t := by
    intro t
    unfold refs
    rw [hd]
  have hother : ∀ t ≠ s, k'.sysFileTable t = k.sysFileTable t := by
    intro t ht
    rw [hm.sysFileTable, Function.update_of_ne ht]
  have hlink : ∀ t, (k'.sysFileTable t).linkNum = (k.sysFileTable t).linkNum ∧
      (k'.sysFileTable t).inodeIndex = (k.sysFileTable t).inodeIndex := by
    intro t
    by_cases ht : t = s
    · subst ht
      rw [hm.sysFileTable, Function.update_self]
      exact ⟨rfl, rfl⟩
    · rw [hother t ht]
      exact ⟨rfl, rfl⟩
  constructor
  · rw [hd]
    exact h.valid
  · intro t ht
    rw [(hlink t).1, hrefs]
    exact h.linkNum t ht
  · intro t ht
    rw [(hlink t).2, hrefs]
    exact h.inodeIndex t ht
  · intro t ht hz
    rw [hrefs] at hz
    rw [hother t fun hts => hs (hts ▸ hz)]
    exact h.offset t ht hz
  · have hused : usedSlots k' = usedSlots k := by
      unfold usedSlots
      rw [countOf_congr_iff]
      intro t _
      rw [(hlink t).2]
    rw [hused, hm.sysFileNum]
    exact h.sysFileNum
  · intro p hp
    unfold openFiles
    rw [hm.pcb]
    exact h.fpNum p hp

/-! ### Every run -/

/-- The lookup of `open_aux` does not end without an inode. -/
def finds (path : ℕ) (k : Kernel) : Bool :=
  match cstring k path >>= fun s => openLookup s k with
  | .ok r => r.1 ≠ -1
  | .error _ => true

/-- Files are opened that the lookup finds, and a process closes its files before it exits. (A
`close_aux` of a descriptor that is -1 is an access outside `sysFileTable`.) -/
def orderly (k : Kernel) : Event → Bool
  | .sys .exit => ∀ fd < MAX_FP_NUM, (k.pcb k.current).filepointer fd = -1
  | .sys (.openPath path _) => finds path k
  | _ => true

/-- The bookkeeping of open files in a sound state. -/
structure FilesKept (k : Kernel) (Q : Queues) : Prop where
  sound : Sound k Q
  files : FilesCounted k
  /-- A free process has no open file. -/
  free : ∀ p ∈ Q .free, ∀ fd < MAX_FP_NUM, (k.pcb p).filepointer fd = -1

/-- After start-up the counts are kept. -/
theorem filesKept_boot (hb : boot img = .ok k) : FilesKept k startQueues := by
  have hs := sound_boot hb
  obtain ⟨-, nx, rfl⟩ := placed_boot hb
  have hnone : ∀ p ∈ procs, ∀ fd < MAX_FP_NUM, (((started img).relink nx).pcb p).filepointer fd = -1 ∧
      (((started img).relink nx).pcb p).fpNum = 3 := by
    intro p hp fd hfd
    have hp1 : p ∈ firstPcbs 9 := by simpa [firstPcbs, procs] using hp
    by_cases h1 : p = .pcb 1
    · simp [Kernel.relink_pcb, started, h1, firstPcb, freePcb, hfd]
    · simp [Kernel.relink_pcb, started, h1, hp1, freePcb, hfd]
  have hrefs : ∀ s, refs ((started img).relink nx) s = 0 := by
    intro s
    unfold refs
    rw [countOf_eq_zero]
    rintro ⟨p, fd⟩ hx hs
    obtain ⟨hp, hfd⟩ := mem_descriptors.mp hx
    have hneg := (hnone p hp fd hfd).1
    rw [Kernel.descriptor, hneg] at hs
    omega
  have htab : ∀ s < MAX_SYS_FILE_NUM, ((started img).relink nx).sysFileTable s = ⟨-1, 0, 0⟩ := by
    intro s hs
    exact if_pos hs
  refine ⟨hs, ?_, ?_⟩
  · constructor
    · rintro ⟨p, fd⟩ hx
      obtain ⟨hp, hfd⟩ := mem_descriptors.mp hx
      exact .inl (hnone p hp fd hfd).1
    · intro s hs
      rw [htab s hs, hrefs]
      rfl
    · intro s hs
      rw [htab s hs, hrefs]
      simp
    · intro s hs _
      rw [htab s hs]
    · have hused : usedSlots ((started img).relink nx) = 0 := by
        unfold usedSlots
        rw [countOf_eq_zero]
        intro s hs
        rw [htab s (Finset.mem_range.mp hs)]
        simp
      rw [hused]
      rfl
    · intro p hp
      have hopen : openFiles ((started img).relink nx) p = 0 := by
        unfold openFiles
        rw [countOf_eq_zero]
        intro fd hfd
        rw [(hnone p hp fd (Finset.mem_range.mp hfd)).1]
        simp
      rw [hopen, (hnone p hp 0 (by decide)).2]
      rfl
  · intro p hp fd hfd
    exact (hnone p (hs.placed.lists.procs .free p hp) fd hfd).1

/-- The lookup changes the file system and the globals only. -/
theorem openLookup_rest {path : List UInt8} {r : ℤ × Kernel} (h : openLookup path k = .ok r) :
    r.2 = { k with fs := r.2.fs, path := r.2.path } := by
  simp only [openLookup, bind_eq_ok] at h
  obtain ⟨e, -, q, -, i, -, h⟩ := h
  obtain rfl := Except.ok.inj h
  rfl

/-- Who is free was free before, or exits without an open file. -/
theorem FilesKept.free_step (h : FilesKept k Q) (ho : orderly k e)
    (hkeep : ∀ p ∈ procs, p ∈ Q .free → (k'.pcb p).filepointer = (k.pcb p).filepointer)
    (hexit : e = .sys .exit → (k'.pcb k.current).filepointer = (k.pcb k.current).filepointer) :
    ∀ p ∈ stepQueues k Q e .free, ∀ fd < MAX_FP_NUM, (k'.pcb p).filepointer fd = -1 := by
  intro p hp fd hfd
  rcases of_mem_stepQueues_free hp with hp | ⟨rfl, rfl⟩
  · rw [hkeep p (h.sound.placed.lists.procs .free p hp) hp]
    exact h.free p hp fd hfd
  · rw [hexit rfl]
    exact of_decide_eq_true ho fd hfd

/-- A call on files leaves the descriptors of the free processes. -/
theorem FilesKept.others (h : FilesKept k Q) (hf : FileCall k k') :
    ∀ p ∈ procs, p ∈ Q .free → (k'.pcb p).filepointer = (k.pcb p).filepointer := by
  intro p _ hp
  rw [hf.others p (h.sound.placed.ne_current hp)]

/-- The child of a fork had no open file and gets those of its parent. -/
theorem FilesKept.fork (h : FilesKept k Q) (hs : Sound k' (stepQueues k Q (.sys .fork)))
    (hc : k.current ∈ procs) (hk : forkAux k = .ok k') : FilesKept k' (stepQueues k Q (.sys .fork)) := by
  obtain ⟨hnew, -, -, nx, rfl⟩ := forkAux_placed h.sound.placed hk
  refine ⟨hs, h.files.fork hc (h.sound.placed.lists.procs .free _ hnew) (h.free _ hnew) nx, ?_⟩
  intro p hp
  have hold : p ∈ Q .free := (mem_forkQueues hp).resolve_right (by simp)
  have hne : p ≠ .pcb k.pNum := by
    rintro rfl
    simp only [stepQueues, forkQueues] at hp
    rw [Queues.push_of_ne _ _ (by simp), Function.update_self] at hp
    exact (h.sound.placed.lists.rep.nodup .free).not_mem_erase hp
  rw [Kernel.relink_pcb, forked_pcb, if_neg hne]
  exact h.free p hold

/-- An open whose lookup ends with an inode. -/
theorem FilesCounted.openPath {path : ℕ} (h : FilesCounted k) (hc : k.current ∈ procs)
    (ho : finds path k) (hk : openAux path k = .ok k') : FilesCounted k' := by
  obtain ⟨str, hstr, hk⟩ := bind_eq_ok.mp hk
  obtain ⟨r, hr, hk⟩ := bind_eq_ok.mp hk
  have hrest := openLookup_rest hr
  have hr1 : r.1 ≠ -1 := by simpa [finds, hstr, hr] using ho
  have hlook : FilesCounted r.2 := by
    rw [hrest]
    exact h.congr (fun _ => rfl) (fun _ => rfl) rfl rfl
  exact hlook.openSlot (by rw [hrest]; exact hc) hr1 hk

/-- **Every orderly event** keeps the bookkeeping. -/
theorem filesKept_step (h : FilesKept k Q) (ho : orderly k e) (hk : step k e = .ok k') :
    FilesKept k' (stepQueues k Q e) := by
  have hs := (sound_step h.sound hk).1
  have hcall : ∀ c, e = .sys c → userMode k ∧ doSyscall k c = .ok k' := by
    rintro c rfl
    simp only [step] at hk
    split_ifs at hk with hu
    exact ⟨hu, hk⟩
  by_cases hoff : e.offFiles
  · have hsame := sameFiles_of_offFiles h.sound hoff hk
    exact ⟨hs, h.files.congr hsame.filepointer hsame.fpNum hsame.sysFileTable hsame.sysFileNum,
      h.free_step ho (fun p _ _ => hsame.filepointer p) fun _ => hsame.filepointer _⟩
  by_cases hmv : e.moves
  · obtain ⟨fd, s, o, hslot, hm⟩ := moved_of_moves hmv hk
    obtain ⟨h0, h8, hheld, -⟩ := slotOf_eq_ok hslot
    have hu : userMode k := by
      cases e with
      | sys c => exact (hcall c rfl).1
      | _ => cases hmv
    have hpos : refs k s ≠ 0 :=
      refs_ne_zero (h.sound.placed.current_mem hu.1) (by omega : fd.toNat < MAX_FP_NUM) hheld
    exact ⟨hs, h.files.moved hpos hm,
      h.free_step ho (fun p _ _ => by rw [hm.pcb]) fun _ => by rw [hm.pcb]⟩
  cases e with
  | timer => exact absurd rfl hoff
  | key _ => exact absurd rfl hoff
  | store a b => exact absurd rfl hoff
  | sys c =>
    obtain ⟨hu, hk⟩ := hcall c rfl
    have hc := h.sound.placed.current_mem hu.1
    cases c with
    | fork => exact h.fork hs hc hk
    | openPath path flags =>
      exact ⟨hs, h.files.openPath hc ho hk, h.free_step ho (h.others (openAux_fileCall hk)) (by simp)⟩
    | close fd =>
      exact ⟨hs, h.files.close hc hk, h.free_step ho (h.others (closeAux_fileCall hk)) (by simp)⟩
    | remove path =>
      have hfc : FileCall k k' := removeAux_fileCall hk
      simp only [doSyscall, removeAux, bind_eq_ok] at hk
      obtain ⟨_, -, r, -, hk⟩ := hk
      obtain rfl := Except.ok.inj hk
      exact ⟨hs, h.files.congr (fun _ => rfl) (fun _ => rfl) rfl rfl,
        h.free_step ho (fun _ _ _ => rfl) fun _ => rfl⟩
    | read fd buf len => simp_all [Event.offFiles, Event.moves]
    | write fd buf len => simp_all [Event.offFiles, Event.moves]
    | seek fd offset whence => exact absurd rfl hmv
    | _ => exact absurd rfl hoff

/-- **In every orderly run** the counts are kept. -/
theorem filesKept_run (hb : boot img = .ok k)
    (hr : Reaches step (fun k e => orderly k e) k es k') : ∃ Q, FilesKept k' Q :=
  hr.invariant (P := fun _ k => ∃ Q, FilesKept k Q) ⟨_, filesKept_boot hb⟩
    fun _ _ _ _ _ ⟨_, hQ⟩ ho hs => ⟨_, filesKept_step hQ ho hs⟩

/-- **Open files are counted** in every state that an orderly run reaches, and a slot that a process
holds is not handed out again. -/
theorem files_counted {k0 : Kernel} (hb : boot img = .ok k0)
    (hr : Reaches step (fun k e => orderly k e) k0 es k) :
    FilesCounted k ∧ ∀ s : ℕ, getAvlSystemFile k = s → refs k s = 0 := by
  obtain ⟨Q, hQ⟩ := filesKept_run hb hr
  exact ⟨hQ.files, fun s hs => (hQ.files.getAvlSystemFile hs).2⟩

/-- A machine with the string `/a` at `0x200300`. -/
def Image.withPath : Image :=
  { Image.blank with mem := fun a => if a = 0x200300 then slash else if a = 0x200301 then 97 else 0 }

/-- The first process opens a file twice, hands both descriptors on to a child and closes one. -/
theorem files_counted_openForkClose :
    ∃ k, checkedFrom .withPath orderly (List.replicate 10 .timer ++ [.sys (.openPath 0x200300 0),
      .sys (.openPath 0x200300 0), .sys .fork, .sys (.close 3)]) = some k ∧
      FilesCounted k ∧ ∀ s : ℕ, getAvlSystemFile k = s → refs k s = 0 := by
  obtain ⟨k, hk⟩ := Option.isSome_iff_exists.mp (show (checkedFrom .withPath orderly
    (List.replicate 10 .timer ++ [.sys (.openPath 0x200300 0), .sys (.openPath 0x200300 0),
      .sys .fork, .sys (.close 3)])).isSome = true by decide +kernel)
  obtain ⟨k0, hb, hr⟩ := reaches_of_checkedFrom hk
  exact ⟨k, hk, files_counted hb hr⟩

/-! ### The files of those who exit -/

/-- The number of descriptors of live processes that refer to slot `s`. -/
def liveRefs (k : Kernel) (s : ℕ) : ℕ :=
  countOf (· = (s : ℤ)) k.descriptor (descriptors.filter fun x => (k.pcb x.1).state ≠ .dead)

/-- Nobody who is gone has left an open file behind. -/
structure Returned (k : Kernel) : Prop where
  free : ∀ s < MAX_SYS_FILE_NUM, liveRefs k s = 0 → (k.sysFileTable s).inodeIndex = -1
  linkNum : ∀ s < MAX_SYS_FILE_NUM, liveRefs k s ≠ 0 → (k.sysFileTable s).linkNum = liveRefs k s
  /-- The table is not exhausted. -/
  available : getAvlSystemFile k ≠ -1

/-- The current process has no open file. -/
def allClosed (k : Kernel) : Prop := ∀ fd < MAX_FP_NUM, (k.pcb k.current).filepointer fd = -1

/-- 72 descriptors cannot use 512 slots. -/
theorem FilesCounted.available (h : FilesCounted k) : OsLab.getAvlSystemFile k ≠ -1 := by
  intro hnone
  have hused : ∀ s, 0 ≤ s → s < 0 + MAX_SYS_FILE_NUM → ¬(k.sysFileTable s).inodeIndex = -1 := by
    rcases firstIndex_spec (fun i => (k.sysFileTable i).inodeIndex = -1) MAX_SYS_FILE_NUM 0 with
      ⟨j, -, -, heq, -⟩ | ⟨-, hall⟩
    · unfold OsLab.getAvlSystemFile at hnone
      omega
    · exact hall
  have hsub : Finset.range MAX_SYS_FILE_NUM ⊆ descriptors.image fun x => (k.descriptor x).toNat := by
    intro s hs
    have hlt := Finset.mem_range.mp hs
    have hpos : refs k s ≠ 0 := fun hz =>
      hused s (Nat.zero_le s) (by omega) ((h.inodeIndex s hlt).mpr hz)
    obtain ⟨x, hx, hxs⟩ := (countOf_pos _).mp hpos
    exact Finset.mem_image.mpr ⟨x, hx, by rw [hxs]; exact Int.toNat_natCast s⟩
  have hcard := (Finset.card_le_card hsub).trans Finset.card_image_le
  rw [Finset.card_range] at hcard
  have hdesc : descriptors.card = 72 := by decide
  rw [hdesc] at hcard
  exact absurd hcard (by decide)

/-- The dead hold no descriptor. -/
theorem FilesKept.liveRefs (h : FilesKept k Q) (ht : Tidy k Q) (s : ℕ) :
    liveRefs k s = refs k s := by
  unfold OsLab.liveRefs refs
  apply countOf_subset
  · exact Finset.filter_subset _ _
  · rintro ⟨p, fd⟩ hx hs
    obtain ⟨hp, hfd⟩ := mem_descriptors.mp hx
    refine Finset.mem_filter.mpr ⟨hx, ?_⟩
    intro hdead
    have hneg := h.free p ((ht.dead_iff hp).mp hdead) fd hfd
    rw [Kernel.descriptor, hneg] at hs
    omega

/-- The counts say that a slot without a holder was given back. -/
theorem FilesKept.returned (h : FilesKept k Q) (ht : Tidy k Q) : Returned k := by
  constructor
  · intro s hs hz
    rw [h.liveRefs ht] at hz
    exact (h.files.inodeIndex s hs).mpr hz
  · intro s hs _
    rw [h.liveRefs ht]
    exact h.files.linkNum s hs
  · exact h.files.available

/-- The process that exits is dead. -/
theorem exit_dead (h : Sound k Q) (hk : step k (.sys .exit) = .ok k') :
    (k'.pcb k.current).state = .dead := by
  have hs := (sound_step h hk).1
  simp only [step] at hk
  split_ifs at hk with hu
  apply hs.placed.state .free
  have hpark : k.current ∈ parkQueues .dead k.current Q .free :=
    mem_parkQueues.mpr (.inr ⟨hu.1, rfl, rfl⟩)
  simp only [stepQueues, schedQueues]
  split_ifs with h1 h2
  · cases h2
  · exact hpark
  · rwa [Queues.pop_of_ne _ (by simp)]

/-- **An exit with an open file** leaves that file behind. -/
theorem exit_keeps_files (h : FilesKept k Q) (hk : step k (.sys .exit) = .ok k')
    (hopen : ¬allClosed k) : ¬Returned k' := by
  intro hret
  unfold allClosed at hopen
  push Not at hopen
  obtain ⟨fd, hfd, hne⟩ := hopen
  have hu : userMode k := by
    simp only [step] at hk
    split_ifs at hk with hu
    exact hu
  have hc := h.sound.placed.current_mem hu.1
  have hsame := sameFiles_of_offFiles h.sound rfl hk
  have hx := mem_descriptors.mpr ⟨hc, hfd⟩
  obtain ⟨h0, hlt⟩ := (h.files.valid _ hx).resolve_left hne
  obtain ⟨s, hs⟩ := Int.eq_ofNat_of_zero_le h0
  have hs' : (k.pcb k.current).filepointer fd = s := hs
  have hslt : s < MAX_SYS_FILE_NUM := by
    rw [hs] at hlt
    exact_mod_cast hlt
  have hpos := refs_ne_zero hc hfd hs'
  have hd : k'.descriptor = k.descriptor := by
    funext x
    unfold Kernel.descriptor
    rw [hsame.filepointer]
  have hless : liveRefs k' s < refs k s := by
    unfold liveRefs refs
    rw [hd]
    apply countOf_lt _ (Finset.filter_subset _ _) hx _ hs'
    intro hmem
    exact (Finset.mem_filter.mp hmem).2 (exit_dead h.sound hk)
  by_cases hz : liveRefs k' s = 0
  · have hi := hret.free s hslt hz
    rw [hsame.sysFileTable] at hi
    exact hpos ((h.files.inodeIndex s hslt).mp hi)
  · have hl := hret.linkNum s hslt hz
    rw [hsame.sysFileTable, h.files.linkNum s hslt] at hl
    omega

/-- The lookup of `open_aux` stays inside its arrays and does not end without an inode. -/
def findsInside (path : ℕ) (k : Kernel) : Bool :=
  match cstring k path >>= fun s => openLookup s k with
  | .ok r => r.1 ≠ -1
  | .error (.wild _) => false
  | .error _ => true

/-- A lookup that stays inside its arrays is one that `orderly` allows. -/
theorem finds_of_findsInside {path : ℕ} (h : findsInside path k) : finds path k := by
  unfold findsInside at h
  unfold finds
  split at h
  · next r hr => rwa [hr]
  · cases h
  · next hr => rw [hr]

/-- Processes open files that the lookup finds, close descriptors of their own, fork, sleep and
exit, and one that exits has closed all of its files before. -/
def closesFirst (k : Kernel) : Event → Bool
  | .timer | .store .. | .sys .fork | .sys (.sleep _) => true
  | .sys .exit => ∀ fd < MAX_FP_NUM, (k.pcb k.current).filepointer fd = -1
  | .sys (.openPath path _) => findsInside path k
  | .sys (.close fd) => IsOpen k fd
  | _ => false

/-- Who closes what is open is orderly. -/
theorem orderly_of_closesFirst (h : closesFirst k e) : orderly k e := by
  unfold closesFirst at h
  split at h
  all_goals first | rfl | exact h | exact finds_of_findsInside h | cases h

/-- A path that the lookup finds without an access outside its arrays is opened without one. -/
theorem openAux_not_wild {path : ℕ} (h : findsInside path k) (w : Access) :
    openAux path k ≠ .error (.wild w) := by
  intro hwild
  have hsplit : openAux path k =
      (cstring k path >>= fun s => openLookup s k) >>= fun r => openSlot r.1 r.2 := by
    unfold openAux
    rw [bind_assoc]
  rw [hsplit] at hwild
  rcases bind_eq_error.mp hwild with hlook | ⟨r, -, hslot⟩
  · rw [findsInside, hlook] at h
    cases h
  · unfold openSlot at hslot
    rcases bind_eq_error.mp hslot with habort | ⟨_, -, hok⟩
    · unfold assert at habort
      split_ifs at habort
      cases habort
    · cases hok

/-- **Such calls stay inside the tables**: each returns, or fails an assertion, or reads a path that
has no end. -/
theorem FilesKept.not_wild (h : FilesKept k Q) {c : Syscall} (ho : closesFirst k (.sys c)) (w : Access) :
    step k (.sys c) ≠ .error (.wild w) := by
  apply step_sys_not_wild
  intro hu
  have hc := h.sound.placed.current_mem hu.1
  cases c with
  | exit =>
    obtain ⟨k', _, -, hk, -⟩ := exitAux_placed h.sound.placed hu.1
    simp [doSyscall, hk]
  | sleep n =>
    obtain ⟨k', hk, -⟩ := sleepAux_placed h.sound.placed hu.1 n
    simp [doSyscall, hk]
  | fork =>
    by_cases hfree : Node.pcb k.pNum ∈ Q .free
    · obtain ⟨k', hk⟩ := forkAux_ok h.sound.placed hfree fun j hj =>
        h.files.valid (k.current, j) (mem_descriptors.mpr ⟨hc, hj⟩)
      simp [doSyscall, hk]
    · simp [doSyscall, forkAux_abort h.sound.placed hfree]
  | openPath path flags => exact openAux_not_wild ho w
  | close fd =>
    obtain ⟨s, hs⟩ := (h.files.slotOf_iff hc).mpr (of_decide_eq_true ho)
    simp [doSyscall, closeAux_eq hs]
  | _ => cases ho

/-- **Exits give back open files** in every run in which a process closes its files before it exits.
No call of such a run stops at an access outside a table, and an exit at the end of it gives the files
back only if the process has closed them. -/
theorem returned_of_closed {k0 : Kernel} (hb : boot img = .ok k0)
    (hr : Reaches step (fun k e => closesFirst k e) k0 es k) :
    Returned k ∧ (∀ c w, closesFirst k (.sys c) → step k (.sys c) ≠ .error (.wild w)) ∧
      ∀ k', step k (.sys .exit) = .ok k' → (Returned k' ↔ allClosed k) := by
  obtain ⟨Q, hQ, ht⟩ := hr.invariant (P := fun _ k => ∃ Q, FilesKept k Q ∧ Tidy k Q)
    ⟨_, filesKept_boot hb, tidy_boot hb⟩ fun _ _ _ e _ ⟨_, hQ, ht⟩ ho hs =>
      ⟨_, filesKept_step hQ (orderly_of_closesFirst ho) hs,
        tidy_step ht (by rintro a v rfl; cases ho) hs⟩
  refine ⟨hQ.returned ht, fun c w ho => hQ.not_wild ho w, ?_⟩
  intro k' hk
  constructor
  · intro hret
    by_contra hopen
    exact exit_keeps_files hQ hk hopen hret
  · intro hclosed
    have ho : orderly k (.sys .exit) := decide_eq_true hclosed
    exact (filesKept_step hQ ho hk).returned (tidy_step ht (by simp) hk)

/-- The first process opens a file, forks, and exits when it has closed the file; the child keeps
it. -/
theorem returned_of_closed_childKeeps :
    ∃ k, checkedFrom .withPath closesFirst (List.replicate 10 .timer ++
      [.sys (.openPath 0x200300 0), .sys .fork, .sys (.close 3), .sys .exit]) = some k ∧
      Returned k ∧ (∀ c w, closesFirst k (.sys c) → step k (.sys c) ≠ .error (.wild w)) ∧
      ∀ k', step k (.sys .exit) = .ok k' → (Returned k' ↔ allClosed k) := by
  obtain ⟨k, hk⟩ := Option.isSome_iff_exists.mp (show (checkedFrom .withPath closesFirst
    (List.replicate 10 .timer ++
      [.sys (.openPath 0x200300 0), .sys .fork, .sys (.close 3), .sys .exit])).isSome = true by
    decide +kernel)
  obtain ⟨k0, hb, hr⟩ := reaches_of_checkedFrom hk
  exact ⟨k, hk, returned_of_closed hb hr⟩

/-- The runs of opens that find their file, closes, forks and exits. -/
def filesInUse (k : Kernel) : Event → Bool
  | .timer | .store .. | .sys .exit | .sys .fork | .sys (.close _) => true
  | .sys (.openPath path _) => finds path k
  | _ => false

/-- **An open file outlives its process.** The first process opens a file and exits. -/
theorem exit_leaks :
    ¬∀ (img : Image) (k0 k : Kernel) (es : List Event), boot img = .ok k0 →
      Reaches step (fun k e => filesInUse k e) k0 es k → Returned k := by
  intro hall
  have hrun : (checkedFrom .withPath filesInUse (List.replicate 10 .timer ++
      [.sys (.openPath 0x200300 0), .sys .exit])).any (fun k =>
        decide (liveRefs k 0 = 0) && decide ((k.sysFileTable 0).inodeIndex ≠ -1)) = true := by
    decide +kernel
  obtain ⟨k, hk, hp⟩ := (Option.any_eq_true _ _).mp hrun
  simp only [Bool.and_eq_true, decide_eq_true_eq] at hp
  obtain ⟨k0, hb, hr⟩ := reaches_of_checkedFrom hk
  exact hp.2 ((hall _ k0 k _ hb hr).free 0 (by decide) hp.1)

end OsLab
