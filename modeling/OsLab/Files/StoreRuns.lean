import OsLab.Files.Fitting
import OsLab.Files.Listing
import OsLab.Files.Store
import OsLab.Semaphore.Counting

/-!
# Runs of a store

Not every call belongs to a store. `regular` leaves out those that are known to break the tables: a
`remove`, an `exit` with open files, a descriptor that is not open, a negative length or position, a
path that is not absolute, whose names are too long or that a listing does not find, and a semaphore
call that follows a `NULL`. What is left is the store of `Files/Store`, in whatever order the
processes are scheduled.

* `storeCalls`: the calls that an event is, with what they return.
* `HasStore.not_wild`: a regular call leaves no table, buffer or pointer.
* `stored_step`: an event is the calls that it makes.
* **`store_refines`**: so what a run has called and returned is a trace of the store.
* **`file_passes`**: what one process writes to a file another one reads from it.
-/

namespace OsLab

open OsLab.Lib

variable {k k' k0 : Kernel} {Q : Queues} {e : Event} {es : List Event} {img : Image} {i s n pos : ℕ}
  {p : Node} {fd len : ℤ} {buf : ℕ} {σ σ' : Store Node FilePath UInt8} {f : OpenFile FilePath}
  {b : List UInt8} {c : StoreCall Node FilePath UInt8}

/-! ### Every event -/

/-- The absolute path at an address. -/
def pathAt (k : Kernel) (a : ℕ) : Option FilePath :=
  match cstring k a with
  | .ok p => if h : IsFilePath p then some ⟨p, h⟩ else none
  | .error _ => none

/-- The string at an address is the path there. -/
theorem cstring_of_pathAt {a : ℕ} {name : FilePath} (h : pathAt k a = some name) :
    cstring k a = .ok name.val := by
  unfold pathAt at h
  split at h
  · next str hstr =>
    split_ifs at h
    rw [hstr, ← Option.some.inj h]
  · cases h

/-- The call that an event is, with what it returns. -/
def storeCalls (k : Kernel) (e : Event) (k' : Kernel) : List (StoreCall Node FilePath UInt8) :=
  match e with
  | .sys (.openPath path _) =>
    ((pathAt k path).map fun name => .openFile k.current name (eaxOf k k')).toList
  | .sys (.cat path) =>
    -- the newline at the end is not in the file
    ((pathAt k path).map fun name => .print name (shown k (.sys (.cat path)) k').dropLast).toList
  | .sys (.read fd buf len) =>
    if fd = stdin then []
    else [.read k.current fd.toNat len.toNat (loadBytes k'.mem (userBuf buf k) (eaxOf k k'))]
  | .sys (.write fd buf len) =>
    if fd = stdout then []
    else [.write k.current fd.toNat (slice (bufByte k (userBuf buf k)) 0 len.toNat) (eaxOf k k')]
  | .sys (.seek fd offset whence) => [.seek k.current fd.toNat (whenceOf whence) offset]
  | .sys (.close fd) => [.close k.current fd.toNat]
  | .sys .fork => [.fork k.current (.pcb k.pNum)]
  | _ => []

/-- What holds of the slot of a descriptor, if there is one. -/
def atSlot (fd : ℤ) (k : Kernel) (P : ℕ → Bool) : Bool :=
  match slotOf fd k with
  | .ok s => P s
  | .error _ => true

/-- A property of the slot behind a descriptor. -/
theorem of_atSlot {P : ℕ → Bool} (h : atSlot fd k P) (hs : slotOf fd k = .ok s) : P s := by
  rw [atSlot, hs] at h
  exact h

/-- The pieces of a path fit the buffers for names: they have at most 27 characters. -/
def pathFits (p : List UInt8) : Bool := ∀ q ∈ pieces p, q.length < MAX_FILENAME_LEN

/-- The inode of the directory with this path. -/
def dirAt (fs : FileSystem) (p : List UInt8) : Option ℕ :=
  if p = [slash] then some 0
  else (follow fs 0 (mids p)).bind fun d => entryOf fs d (lastPiece p) DIR

/-- The string at an address is the path of a directory that is there. -/
def listsDir (path : ℕ) (k : Kernel) : Bool :=
  match cstring k path with
  | .ok p => p.head? = some slash ∧ pathFits p ∧ (dirAt k.fs p).isSome
  | .error _ => false

/-- The event is a call of a store, or a call that is not about files and follows no `NULL`. -/
def regular (k : Kernel) : Event → Bool
  | .sys .exit => ∀ fd < MAX_FP_NUM, (k.pcb k.current).filepointer fd = -1
  | .sys (.remove _) => false
  | .sys (.openPath path _) => (pathAt k path).any fun name => pathFits name.val
  | .sys (.cat path) => (pathAt k path).any fun name =>
    pathFits name.val && (fileAt k.fs name.val).isSome
  | .sys (.ls path) => listsDir path k
  | .sys (.read fd buf len) => fd = stdin ∨ IsOpen k fd ∧ buf < 2 ^ 32 ∧ 0 ≤ len ∧
    atSlot fd k fun s => (k.sysFileTable s).offset + len < 2 ^ 31
  | .sys (.write fd _ len) => fd = stdout ∨ IsOpen k fd ∧ 0 ≤ len ∧
    atSlot fd k fun s => (k.sysFileTable s).offset + len < 2 ^ 31
  | .sys (.seek fd offset whence) => IsOpen k fd ∧ atSlot fd k fun s =>
    0 ≤ seekTarget k s offset whence ∧ seekTarget k s offset whence < 2 ^ 31
  | .sys (.close fd) => IsOpen k fd
  | .sys (.semWait a) => blocks a k → k.psemSet
  | .sys (.semPost a) => (k.sem a).value < 0 → k.initialised a
  | _ => true

/-- What a regular call says of its path. -/
theorem of_any_pathAt {a : ℕ} {P : FilePath → Bool} (h : (pathAt k a).any P) :
    ∃ name, pathAt k a = some name ∧ P name := by
  cases hname : pathAt k a with
  | none =>
    rw [hname] at h
    cases h
  | some name =>
    rw [hname] at h
    exact ⟨name, rfl, h⟩

/-- What is not about files changes nothing. -/
theorem HasStore.same (h : HasStore k σ) (hs : SameFiles k k') : HasStore k' σ where
  wf := by rw [hs.fs]; exact h.wf
  clean := by rw [hs.fs]; exact h.clean
  sane := h.sane
  files := by rw [hs.fs]; exact h.files
  descriptor := by rw [heldSlot_congr hs.filepointer]; exact h.descriptor
  opened p fd s f hd ho := by
    obtain ⟨i, hopen⟩ := h.opened p fd s f hd ho
    exact ⟨i, by rw [hs.fs]; exact hopen.file, by rw [hs.sysFileTable]; exact hopen.inodeIndex,
      by rw [hs.sysFileTable]; exact hopen.offset, hopen.lt⟩

/-- A regular event is an orderly one. -/
theorem orderly_of_regular (h : HasStore k σ) (hr : regular k e) : orderly k e := by
  unfold orderly
  split
  · exact hr
  · next path flags =>
    obtain ⟨name, hname, -⟩ := of_any_pathAt hr
    unfold finds
    rw [cstring_of_pathAt hname, ok_bind]
    split
    · next r hlook =>
      obtain ⟨x, hx, -⟩ := lookedUp_openLookup h.wf h.clean hlook
      simp only [decide_eq_true_eq]
      omega
    · rfl
  · rfl

/-! ### Regular calls stay inside -/

/-- Printing stops at the end of the video memory at most. -/
theorem screenPuts_error {text : List UInt8} {sc : Screen} {x : Stop} (h : screenPuts sc text = .error x) :
    x = .wild .video := by
  rw [← printString_screenPut] at h
  exact printString_error (P := (· = .wild .video)) (fun c s e => screenPut_error) h

/-- So does a write to the screen. -/
theorem writeScreen_error {a m : ℕ} {sc : Screen} {x : Stop} (h : writeScreen k a m n sc = .error x) :
    x = .wild .video := by
  induction m generalizing n sc with
  | zero => cases h
  | succ m ih =>
    rcases bind_eq_error.mp h with hput | ⟨sc', -, h⟩
    · exact screenPut_error hput
    · exact ih h

/-- So does `cat_aux`'s loop over a file within its block. -/
theorem catLoop_error {d : Inode} {m : ℕ} {sc : Screen} {x : Stop} (hfit : n + m ≤ 32768)
    (h : catLoop d m n sc = .error x) : x = .wild .video := by
  induction m generalizing n sc with
  | zero => cases h
  | succ m ih =>
    have hin : n < MAX_FILE_SZ_KB * 1024 := show n < 32768 by omega
    rw [catLoop, if_pos hin] at h
    rcases bind_eq_error.mp h with hput | ⟨sc', -, h⟩
    · rw [printQ_char] at hput
      exact screenPuts_error hput
    · exact ih (by omega) h

/-- A read of the keyboard stops at the end of the key buffer at most. -/
theorem readKeys_stop {m : ℕ} {x : Stop} (h : readKeys k m n = .error x) : x = .wild .keyBuffer := by
  induction m generalizing n with
  | zero => cases h
  | succ m ih =>
    rw [readKeys] at h
    split_ifs at h
    · rcases bind_eq_error.mp h with h | ⟨rest, -, h⟩
      · exact ih h
      · cases h
    · exact (Except.error.inj h).symm

/-- The directories on the way to a path that fits. -/
theorem mids_of_pathFits {p : List UInt8} (hp : p.head? = some slash) (hne : p ≠ [slash])
    (h : pathFits p) : (∀ q ∈ mids p, q.length < MAX_FILENAME_LEN) ∧
      (lastPiece p).length < MAX_FILENAME_LEN := by
  have hall : ∀ q ∈ pieces p, q.length < MAX_FILENAME_LEN := of_decide_eq_true h
  rw [pieces_eq hp hne] at hall
  exact ⟨fun q hq => hall q (by simp [hq]), hall _ (by simp)⟩

/-- **The lookup of `open_aux`**, and the creation in it, stay inside their arrays. -/
theorem openLookup_not_wild {p : List UInt8} (h : WellFormed k.fs) (hp : IsFilePath p) (hfits : pathFits p)
    (w : Access) : openLookup p k ≠ .error (.wild w) := by
  intro hwild
  obtain ⟨hlen, hlast⟩ := mids_of_pathFits hp.absolute hp.ne hfits
  simp only [openLookup, isFLExist, bind_eq_error] at hwild
  rcases hwild with hwild | ⟨⟨found, g1⟩, hfound, hwild⟩
  · -- the first search
    rcases findCurrentFLPos_cases h.scannable h.root hp.absolute hp.zero hlen k.path with
      habort | ⟨v, g1, hfl⟩
    · simp [habort] at hwild
    · simp [hfl] at hwild
  obtain ⟨⟨v, g2⟩, hfl, -⟩ := bind_eq_ok.mp hfound
  obtain ⟨d, hw, -⟩ := entryOf_of_findCurrentFLPos hp.absolute hp.ne hp.zero hfl
  have hnew : (if found then Except.ok (k.fs, g1) else makeFL k.fs p none g1) = .error .abort ∨
      ∃ fs' g', (if found then Except.ok (k.fs, g1) else makeFL k.fs p none g1) = .ok (fs', g') ∧
        WellFormed fs' := by
    cases found with
    | true => exact .inr ⟨k.fs, g1, rfl, h⟩
    | false =>
      have hmake : (Maker.file none).Fits k.fs p :=
        .inr ⟨wayFits_of_follow hlen hw, fun _ _ => ⟨hlast, .inr trivial⟩⟩
      rcases Maker.run_cases h.scannable h.root hp.absolute hp.zero hmake g1 with
        habort | ⟨g', hok⟩ | ⟨g', d', s, i, hm⟩
      · exact .inl habort
      · exact .inr ⟨k.fs, g', hok, h⟩
      · have hok := hm.run
        simp only [Maker.run] at hok
        obtain ⟨s', x, hc, hfs⟩ := creates_of_makeFL h hp hw hok
        exact .inr ⟨_, g', hok, by rw [hfs]; exact hc.wellFormed⟩
  rcases hnew with habort | ⟨fs', g', hok, h'⟩
  · simp [habort] at hwild
  · -- the search for the file that is there then
    rw [hok] at hwild
    rcases findCurrentFLPos_cases h'.scannable h'.root hp.absolute hp.zero hlen g' with
      habort | ⟨v, g2, hfl⟩
    · simp [habort] at hwild
    · simp [hfl] at hwild

/-- A path that fits is found, and made before where it has to be. -/
theorem findsInside_of_regular {path : ℕ} {flags : ℤ} (h : HasStore k σ)
    (hr : regular k (.sys (.openPath path flags))) : findsInside path k := by
  obtain ⟨name, hname, hfits⟩ := of_any_pathAt hr
  unfold findsInside
  rw [cstring_of_pathAt hname, ok_bind]
  split
  · next r hlook =>
    obtain ⟨x, hx, -⟩ := lookedUp_openLookup h.wf h.clean hlook
    simp only [decide_eq_true_eq]
    omega
  · next w hwild => exact absurd hwild (openLookup_not_wild h.wf name.property hfits w)
  · rfl

/-- `cat_aux` of a file that is there stops at the end of the video memory at most. -/
theorem catAux_error {path : ℕ} {name : FilePath} {x : Stop} (h : HasStore k σ)
    (hstr : cstring k path = .ok name.val) (hfile : (fileAt k.fs name.val).isSome)
    (hk : catAux path k = .error x) : x = .wild .video := by
  obtain ⟨y, hy⟩ := Option.isSome_iff_exists.mp hfile
  obtain ⟨hlt, -, hty⟩ := h.wf.isFile hy
  obtain ⟨d, hw, hentry⟩ := fileAt_eq_some.mp hy
  obtain ⟨g', hfl⟩ := findCurrentFLPos_eq h.wf.scannable h.wf.root name.property.absolute
    name.property.ne name.property.zero hw k.path
  rw [hentry] at hfl
  have hsize := (h.clean.file y hlt hty).fits
  rw [catAux, hstr, ok_bind, hfl, ok_bind, indexOf, inodeAt_eq hlt, ok_bind] at hk
  rcases bind_eq_error.mp hk with hloop | ⟨sc, -, hk⟩
  · exact catLoop_error (by omega) hloop
  · rcases bind_eq_error.mp hk with hline | ⟨sc', -, hk⟩
    · rw [printQ_newline] at hline
      exact screenPuts_error hline
    · cases hk

/-- `ls_aux` of a directory that is there stops at the end of the video memory at most. -/
theorem lsAux_error {path : ℕ} {x : Stop} (h : HasStore k σ) (hl : listsDir path k)
    (hk : lsAux path k = .error x) : x = .wild .video := by
  unfold listsDir at hl
  split at hl
  · next p hstr =>
    obtain ⟨hp, -, hdir⟩ := of_decide_eq_true hl
    obtain ⟨y, hy⟩ := Option.isSome_iff_exists.mp hdir
    have h0 := zero_not_mem_cstring hstr
    -- where the walker gets to
    have hfound : IsDir k.fs y ∧ ∃ g', findCurrentDirPos k.fs p k.path = .ok ((y : ℤ), g') := by
      unfold dirAt at hy
      split_ifs at hy with hroot
      · subst hroot
        obtain rfl := Option.some.inj hy
        exact ⟨h.wf.root, findCurrentDirPos_slash k.path⟩
      · obtain ⟨d, hw, hentry⟩ := Option.bind_eq_some_iff.mp hy
        have hd := h.wf.scannable.follow h.wf.root hw
        obtain ⟨g', hfind⟩ := findCurrentDirPos_eq h.wf.scannable h.wf.root hp hroot h0 hw k.path
        rw [hentry] at hfind
        have hway : follow k.fs d [lastPiece p] = some y := by
          rw [follow, hentry]
          rfl
        exact ⟨h.wf.scannable.follow hd hway, g', hfind⟩
    obtain ⟨hd, g', hfind⟩ := hfound
    have hread := h.wf.readable y hd
    have hdots : (k.fs.inode y).Used 0 ∧ (k.fs.inode y).Used 1 := by
      constructor
      · rw [hread.used_iff (by decide), (h.wf.dot y hd).1]
        simp
      · rw [hread.used_iff (by decide), h.wf.dotdot y hd]
        simp
    rw [lsAux_eq hstr hfind (inodeAt_eq hd.lt) hdots.1 hdots.2 (h.wf.counted y hd)
      fun j hj _ => ⟨_, hread j hj⟩] at hk
    rcases bind_eq_error.mp hk with hputs | ⟨sc, -, hk⟩
    · exact screenPuts_error hputs
    · cases hk
  · cases hl

/-- **A regular call** leaves no table, no buffer and no pointer. It stops at a failed assertion, or at
the end of the video memory or the key buffer. -/
theorem HasStore.not_wild (h : HasStore k σ) (hf : FilesKept k Q) {c : Syscall} {w : Access}
    (hr : regular k (.sys c)) (hvideo : w ≠ .video) (hkeys : w ≠ .keyBuffer) :
    step k (.sys c) ≠ .error (.wild w) := by
  apply step_sys_not_wild
  intro hu
  have hcur := hf.sound.placed.current_mem hu.1
  have hstep : step k (.sys c) = doSyscall k c := if_pos hu
  cases c with
  | exit =>
    rw [← hstep]
    exact hf.not_wild (c := .exit) hr w
  | fork =>
    rw [← hstep]
    exact hf.not_wild (c := .fork) rfl w
  | sleep n =>
    rw [← hstep]
    exact hf.not_wild (c := .sleep n) rfl w
  | close fd =>
    rw [← hstep]
    exact hf.not_wild (c := .close fd) hr w
  | remove path => cases hr
  | openPath path flags => exact openAux_not_wild (findsInside_of_regular h hr) w
  | cat path =>
    obtain ⟨name, hname, hthere⟩ := of_any_pathAt hr
    intro hwild
    exact hvideo (Stop.wild.inj
      (catAux_error h (cstring_of_pathAt hname) (Bool.and_eq_true_iff.mp hthere).2 hwild))
  | ls path =>
    intro hwild
    exact hvideo (Stop.wild.inj (lsAux_error h hr hwild))
  | read fd buf len =>
    by_cases hin : fd = stdin
    · intro hwild
      rw [doSyscall, readAux, if_pos hin, pollRead] at hwild
      split_ifs at hwild
      rcases bind_eq_error.mp hwild with hread | ⟨keys, -, hwild⟩
      · exact hkeys (Stop.wild.inj (readKeys_stop hread))
      · cases hwild
    · obtain ⟨hopen, -, -, -⟩ := (of_decide_eq_true hr).resolve_left hin
      obtain ⟨s, hs⟩ := (hf.files.slotOf_iff hcur).mpr hopen
      obtain ⟨f, b, i, -, hat, hi, -, hty, -⟩ := h.behind hf hu hs
      rw [Ne, doSyscall_error_iff (a := .read len) (by rw [Syscall.access, if_neg hin]) hs,
        hat.inodeIndex]
      obtain ⟨bytes, hbytes⟩ : ∃ bytes, readF k.fs i len (k.sysFileTable s).offset = .ok bytes :=
        readF_ok hi (h.clean.file i hi hty).fits
      simp only [accessStep, position, hbytes, ok_bind, inodeAt_eq hi]
      simp
  | write fd buf len =>
    by_cases hout : fd = stdout
    · intro hwild
      rw [doSyscall, writeAux, if_pos hout] at hwild
      rcases bind_eq_error.mp hwild with hscreen | ⟨sc, -, hwild⟩
      · exact hvideo (Stop.wild.inj (writeScreen_error hscreen))
      · cases hwild
    · obtain ⟨hopen, h0, hsum⟩ := (of_decide_eq_true hr).resolve_left hout
      obtain ⟨s, hs⟩ := (hf.files.slotOf_iff hcur).mpr hopen
      obtain ⟨f, b, i, -, hat, hi, -⟩ := h.behind hf hu hs
      have hsum := of_decide_eq_true (of_atSlot hsum hs)
      have hoff : 0 ≤ (k.sysFileTable s).offset := by
        rw [hat.offset]
        omega
      rw [Ne, doSyscall_error_iff (a := .write (bufByte k (userBuf buf k)) len)
        (by rw [Syscall.access, if_neg hout]) hs, hat.inodeIndex]
      simp only [accessStep, position, bind_eq_error, reduceCtorEq, and_false, exists_false, or_false]
      exact writeF_not_wild hi hoff h0 hsum w
  | seek fd offset whence =>
    obtain ⟨s, hs⟩ := (hf.files.slotOf_iff hcur).mpr (of_decide_eq_true hr).1
    obtain ⟨f, b, i, -, hat, hi, -⟩ := h.behind hf hu hs
    rw [Ne, doSyscall_error_iff (a := .seek offset whence) rfl hs, hat.inodeIndex]
    simp only [accessStep, position, inodeAt_eq hi]
    split_ifs <;> simp
  | semInit a v =>
    rw [doSyscall, semInitAux_eq a v k]
    simp
  | semDestroy a =>
    rw [doSyscall, semDestroyAux]
    simp
  | semWait a =>
    obtain ⟨k', hk'⟩ := wait_ok hf.sound (of_decide_eq_true hr) hu
    rw [← hstep, hk']
    simp
  | semPost a =>
    rw [← hstep]
    exact post_not_wild hf.sound (of_decide_eq_true hr) hu w

/-! ### Every event -/

/-- What `cat_aux` prints is the file. -/
theorem stored_cat {path : ℕ} {name : FilePath} (h : HasStore k σ) (hstr : cstring k path = .ok name.val)
    (hk : catAux path k = .ok k') :
    Store.Step 0 σ (.print name (shown k (.sys (.cat path)) k').dropLast) σ := by
  obtain ⟨str, hstr', hk⟩ := bind_eq_ok.mp hk
  obtain rfl : name.val = str := Except.ok.inj (hstr.symm.trans hstr')
  obtain ⟨⟨v, g'⟩, hfind, hk⟩ := bind_eq_ok.mp hk
  obtain ⟨d, hd, -⟩ := bind_eq_ok.mp hk
  have htext : catText path k = .ok (d.file.values ++ [10]) := by
    rw [catText, hstr, ok_bind, hfind, ok_bind, hd, ok_bind]
    rfl
  obtain ⟨x, -, hx, rfl⟩ := inodeAt_inv hd
  obtain ⟨e, hw, hfile⟩ := entryOf_of_findCurrentFLPos name.property.absolute name.property.ne
    name.property.zero hfind
  obtain ⟨y, hy, hxy⟩ := hfile (by omega)
  obtain rfl : x = y := by exact_mod_cast hx.symm.trans hxy
  have hat : fileAt k.fs name.val = some x := by
    rw [fileAt, hw, Option.bind_some, hy]
  have hsome : σ.files name = some (k.fs.inode x).file.values := by
    rw [h.files, filesOf, hat, Option.map_some]
  have hout : (shown k (.sys (.cat path)) k').dropLast = (k.fs.inode x).file.values := by
    rw [shown, htext, textOf, List.dropLast_concat]
  rw [hout]
  exact .print hsome

/-- **A regular event** is the call that it makes. -/
theorem stored_step (h : HasStore k σ) (hf : FilesKept k Q) (hr : regular k e) (hk : step k e = .ok k') :
    storeCalls k e k' = [] ∧ HasStore k' σ ∨
      ∃ c σ', storeCalls k e k' = [c] ∧ Store.Step 0 σ c σ' ∧ HasStore k' σ' := by
  have hf' := filesKept_step hf (orderly_of_regular h hr) hk
  by_cases hoff : e.offFiles
  · have hsame := h.same (sameFiles_of_offFiles hf.sound hoff hk)
    cases e with
    | sys c =>
      cases c with
      | cat path =>
        obtain ⟨name, hname, -⟩ := of_any_pathAt hr
        have hcat : catAux path k = .ok k' := by
          simp only [step] at hk
          split_ifs at hk
          exact hk
        refine .inr ⟨_, σ, ?_, stored_cat h (cstring_of_pathAt hname) hcat, hsame⟩
        simp only [storeCalls, hname]
        rfl
      | read fd buf len => exact .inl ⟨if_pos (of_decide_eq_true hoff), hsame⟩
      | write fd buf len => exact .inl ⟨if_pos (of_decide_eq_true hoff), hsame⟩
      | seek fd offset whence => cases hoff
      | openPath path flags => cases hoff
      | close fd => cases hoff
      | remove path => cases hoff
      | fork => cases hoff
      | _ => exact .inl ⟨rfl, hsame⟩
    | _ => exact .inl ⟨rfl, hsame⟩
  cases e with
  | timer => exact absurd rfl hoff
  | key scanCode => exact absurd rfl hoff
  | store a b => exact absurd rfl hoff
  | sys c =>
    simp only [step] at hk
    split_ifs at hk with hu
    right
    cases c with
    | read fd buf len =>
      have hin : fd ≠ stdin := fun hin => hoff (decide_eq_true hin)
      obtain ⟨-, hbuf, h0, hfit⟩ := (of_decide_eq_true hr).resolve_left hin
      obtain ⟨σ', hs, hst⟩ := stored_read h hf hu hin hbuf h0
        (fun s hs => of_decide_eq_true (of_atSlot hfit hs)) hk
      exact ⟨_, σ', if_neg hin, hs, hst⟩
    | write fd buf len =>
      have hout : fd ≠ stdout := fun hout => hoff (decide_eq_true hout)
      obtain ⟨-, h0, -⟩ := (of_decide_eq_true hr).resolve_left hout
      obtain ⟨σ', hs, hst⟩ := stored_write h hf hu hout h0 hk
      exact ⟨_, σ', if_neg hout, hs, hst⟩
    | seek fd offset whence =>
      obtain ⟨σ', hs, hst⟩ := stored_seek h hf hu
        (fun s hs => of_decide_eq_true (of_atSlot (of_decide_eq_true hr).2 hs)) hk
      exact ⟨_, σ', rfl, hs, hst⟩
    | openPath path flags =>
      obtain ⟨name, hname, -⟩ := of_any_pathAt hr
      obtain ⟨σ', hs, hst⟩ := stored_open h hf hu (cstring_of_pathAt hname) hk
      refine ⟨_, σ', ?_, hs, hst⟩
      simp only [storeCalls, hname]
      rfl
    | close fd =>
      obtain ⟨σ', hs, hst⟩ := stored_close h hf hf'.files hu hk
      exact ⟨_, σ', rfl, hs, hst⟩
    | remove path => cases hr
    | fork =>
      obtain ⟨σ', hs, hst⟩ := stored_fork h hf hu hk
      exact ⟨_, σ', rfl, hs, hst⟩
    | _ => exact absurd rfl hoff

/-! ### Every run -/

/-- The kernel is sound, and has the files of the store. -/
def IsStore (k : Kernel) (σ : Store Node FilePath UInt8) : Prop := ∃ Q, FilesKept k Q ∧ HasStore k σ

/-- **After start-up** the kernel is the store of its files. -/
theorem isStore_boot (hb : boot img = .ok k) (hwf : WellFormed img.fs) (hclean : CleanFiles img.fs) :
    IsStore k (storeOf img.fs) := ⟨_, filesKept_boot hb, stored_boot hb hwf hclean⟩

/-- One event, as the calls of the store that it makes; all of them are of a kind. -/
theorem isStore_step {spec : Store Node FilePath UInt8 → StoreCall Node FilePath UInt8 →
      Store Node FilePath UInt8 → Prop} (h : IsStore k σ) (hr : regular k e) (hk : step k e = .ok k')
    (hspec : ∀ c σ', HasStore k σ → storeCalls k e k' = [c] → Store.Step 0 σ c σ' → spec σ c σ') :
    ∃ σ', Trace spec σ (storeCalls k e k') σ' ∧ IsStore k' σ' := by
  obtain ⟨Q, hf, hst⟩ := h
  have hf' := filesKept_step hf (orderly_of_regular hst hr) hk
  rcases stored_step hst hf hr hk with ⟨hnil, hst'⟩ | ⟨c, σ', hc, hs, hst'⟩
  · rw [hnil]
    exact ⟨σ, .nil, _, hf', hst'⟩
  · rw [hc]
    exact ⟨σ', .single (hspec c σ' hst hc hs), _, hf', hst'⟩

/-- **The file system is a store**: in every run of regular events, what the processes have called and
what was returned to them is a trace of the store that started with the files of the image, and the
files, open files and descriptors are those of the store. No regular call leaves the tables, the
buffers of `fs.c` or a pointer. -/
theorem store_refines (hb : boot img = .ok k0) (hwf : WellFormed img.fs) (hclean : CleanFiles img.fs)
    (hr : Reaches step (fun k e => regular k e) k0 es k) :
    (∃ σ, Trace (Store.Step 0) (storeOf img.fs) (log step storeCalls k0 es) σ ∧ HasStore k σ) ∧
      ∀ c w, regular k (.sys c) → w ≠ .video → w ≠ .keyBuffer →
        step k (.sys c) ≠ .error (.wild w) := by
  obtain ⟨σ, htrace, Q, hf, hst⟩ := hr.simulates (R := IsStore) (isStore_boot hb hwf hclean)
    fun _ _ _ _ h hok hs => isStore_step h hok hs fun _ _ _ _ hcall => hcall
  exact ⟨⟨σ, htrace, hst⟩, fun c w => hst.not_wild hf⟩

/-- A process opens a file. -/
def openFirst : List Event := .replicate 10 .timer ++ [.sys (.openPath 0x200300 0)]

/-- It goes back to the begin of the file, and a child takes over. -/
def handOver : List Event := [.sys (.seek 3 0 0), .sys .fork] ++ .replicate 10 .timer

/-- The image with a path in memory has an empty file system. -/
theorem withPath_fs : Image.withPath.fs = Image.blank.fs := rfl

/-- It is well formed. -/
theorem withPath_wellFormed : WellFormed Image.withPath.fs := by
  rw [withPath_fs]
  exact blank_wellFormed

/-- It has no file, so its files are clean. -/
theorem withPath_cleanFiles : CleanFiles Image.withPath.fs := by
  rw [withPath_fs]
  exact blank_cleanFiles

/-- The first process opens a file. -/
theorem store_refines_openFirst :
    ∃ k0 k, boot .withPath = .ok k0 ∧ Reaches step (fun k e => regular k e) k0 openFirst k ∧
      (∃ σ, Trace (Store.Step 0) (storeOf Image.withPath.fs) (log step storeCalls k0 openFirst) σ ∧
        HasStore k σ) ∧
      ∀ c w, regular k (.sys c) → w ≠ .video → w ≠ .keyBuffer →
        step k (.sys c) ≠ .error (.wild w) := by
  obtain ⟨k, hk⟩ := Option.isSome_iff_exists.mp
    (show (checkedFrom .withPath regular openFirst).isSome = true by decide +kernel)
  obtain ⟨k0, hb, hr⟩ := reaches_of_checkedFrom hk
  exact ⟨k0, k, hb, hr, store_refines hb withPath_wellFormed withPath_cleanFiles hr⟩

/-- Descriptor `fd` of the caller is open on the file with this name, through slot `s`. -/
def OpenOn (k : Kernel) (fd : ℤ) (s : ℕ) (name : FilePath) : Prop :=
  slotOf fd k = .ok s ∧ ∃ i : ℕ, fileAt k.fs name.val = some i ∧ (k.sysFileTable s).inodeIndex = i

/-- The event is a write to the file with this name. -/
def writesFile (name : FilePath) (k : Kernel) (e : Event) : Prop :=
  ∃ fd buf len s, e = .sys (.write fd buf len) ∧ fd ≠ stdout ∧ OpenOn k fd s name

/-- What is open on a file in the kernel is open on it in the store. -/
theorem HasStore.openOn {name : FilePath} (h : HasStore k σ) (hf : FilesKept k Q) (hu : userMode k)
    (ho : OpenOn k fd s name) : ∃ f b, σ.Behind k.current fd.toNat s f b ∧ f.name = name ∧
      (k.sysFileTable s).offset = f.pos := by
  obtain ⟨hs, i, hi, hidx⟩ := ho
  obtain ⟨f, b, j, hb, hopen, -⟩ := h.behind hf hu hs
  obtain rfl : i = j := by exact_mod_cast hidx.symm.trans hopen.inodeIndex
  exact ⟨f, b, hb, Subtype.ext (fileAt_inj h.wf f.name.property name.property hopen.file hi), hopen.offset⟩

/-- What is a write of the store is a write of the kernel. -/
theorem storeCalls_write {j count : ℕ} {bytes : List UInt8}
    (hc : storeCalls k e k' = [.write p j bytes count]) :
    p = k.current ∧ ∃ fd buf len, e = .sys (.write fd buf len) ∧ fd ≠ stdout ∧ j = fd.toNat := by
  unfold storeCalls at hc
  split at hc
  · next path flags => cases hname : pathAt k path <;> simp [hname] at hc
  · next path => cases hname : pathAt k path <;> simp [hname] at hc
  · split_ifs at hc
    cases hc
  · next fd buf len =>
    split_ifs at hc with hout
    obtain ⟨rfl, rfl, -⟩ := StoreCall.write.inj (List.cons.inj hc).1
    exact ⟨rfl, fd, buf, len, rfl, hout, rfl⟩
  all_goals cases hc

/-- And the file that it writes to is the same. -/
theorem writesFile_of_writesTo {name : FilePath} (h : HasStore k σ) (hc : storeCalls k e k' = [c])
    (hk : step k e = .ok k') (hw : σ.writesTo name c) : writesFile name k e := by
  obtain ⟨q, j, bytes, count, t, f, rfl, hd, ho, rfl⟩ := hw
  obtain ⟨rfl, fd, buf, len, rfl, hout, rfl⟩ := storeCalls_write hc
  simp only [step] at hk
  split_ifs at hk with hu
  obtain ⟨s, hs, -⟩ := access_of_doSyscall (c := .write fd buf len) (if_neg hout) hk
  have hheld : Held k k.current fd.toNat t := by
    rw [h.descriptor] at hd
    exact heldSlot_eq_some.mp hd
  obtain rfl : s = t := by exact_mod_cast (slotOf_eq_ok hs).2.2.1.symm.trans hheld.slot
  obtain ⟨i, hopen⟩ := h.opened _ _ _ _ hd ho
  exact ⟨fd, buf, len, s, rfl, hout, hs, i, hopen.file, hopen.inodeIndex⟩

/-- A write through a descriptor that is open on the file. -/
theorem IsStore.write {name : FilePath} (h : IsStore k σ) (ho : OpenOn k fd s name) (hout : fd ≠ stdout)
    (h0 : 0 ≤ len) (hw : step k (.sys (.write fd buf len)) = .ok k') :
    ∃ f b σ', σ.Behind k.current fd.toNat s f b ∧ f.name = name ∧ (k.sysFileTable s).offset = f.pos ∧
      len + f.pos < 32768 ∧ Store.Step 0 σ
        (.write k.current fd.toNat (slice (bufByte k (userBuf buf k)) 0 len.toNat) (eaxOf k k')) σ' ∧
      IsStore k' σ' := by
  obtain ⟨Q, hf, hst⟩ := h
  have hreg : regular k (.sys (.write fd buf len)) := by
    simp only [step] at hw
    split_ifs at hw with hu
    have hcur := hf.sound.placed.current_mem hu.1
    have hfit := write_fits hst hf hu hout h0 ho.1 hw
    refine decide_eq_true (.inr ⟨(hf.files.slotOf_iff hcur).mp ⟨s, ho.1⟩, h0, ?_⟩)
    rw [atSlot, ho.1]
    exact decide_eq_true (by omega)
  have hf' := filesKept_step hf (orderly_of_regular hst hreg) hw
  simp only [step] at hw
  split_ifs at hw with hu
  obtain ⟨f, b, hb, hname, hoff⟩ := hst.openOn hf hu ho
  have hfit := write_fits hst hf hu hout h0 ho.1 hw
  obtain ⟨σ', hcall, hst'⟩ := stored_write hst hf hu hout h0 hw
  exact ⟨f, b, σ', hb, hname, hoff, by omega, hcall, _, hf', hst'⟩

/-- A read through a descriptor that is open on the file. -/
theorem IsStore.read {name : FilePath} (h : IsStore k σ) (ho : OpenOn k fd s name) (hin : fd ≠ stdin)
    (hbuf : buf < 2 ^ 32) (h0 : 0 ≤ len) (hlt : (k.sysFileTable s).offset + len < 2 ^ 31)
    (hrd : step k (.sys (.read fd buf len)) = .ok k') :
    ∃ f b σ', σ.Behind k.current fd.toNat s f b ∧ f.name = name ∧ (k.sysFileTable s).offset = f.pos ∧
      Store.Step 0 σ
        (.read k.current fd.toNat len.toNat (loadBytes k'.mem (userBuf buf k) (eaxOf k k'))) σ' := by
  obtain ⟨Q, hf, hst⟩ := h
  simp only [step] at hrd
  split_ifs at hrd with hu
  obtain ⟨f, b, hb, hname, hoff⟩ := hst.openOn hf hu ho
  obtain ⟨σ', hcall, -⟩ := stored_read hst hf hu hin hbuf h0 (by
    intro t ht
    obtain rfl : s = t := Except.ok.inj (ho.1.symm.trans ht)
    exact hlt) hrd
  exact ⟨f, b, σ', hb, hname, hoff, hcall⟩

/-- A buffer that is as long as it should be. -/
theorem loadBytes_eq_slice {m : ℕ → UInt8} {g : ℕ → UInt8} {a : ℕ}
    (h : loadBytes m a n = slice g 0 i) : n = i ∧ loadBytes m a i = slice g 0 i := by
  have hlen : n = i := by
    have := congrArg List.length h
    simpa [loadBytes] using this
  exact ⟨hlen, by rw [← h, hlen]⟩

/-- **What one process writes another one reads**: after a write, whatever happens then but a write to
that file, a read of as many bytes at that position returns them, through whatever descriptor. -/
theorem file_passes {k1 k2 k3 k4 : Kernel} {es1 es2 : List Event} {name : FilePath} {fd' : ℤ} {buf' s' : ℕ}
    (hb : boot img = .ok k0) (hwf : WellFormed img.fs) (hclean : CleanFiles img.fs)
    (hr1 : Reaches step (fun k e => regular k e) k0 es1 k1)
    (ho1 : OpenOn k1 fd s name) (hout : fd ≠ stdout) (h0 : 0 ≤ len)
    (hw : step k1 (.sys (.write fd buf len)) = .ok k2)
    (hr2 : Reaches step (fun k e => regular k e ∧ ¬writesFile name k e) k2 es2 k3)
    (ho3 : OpenOn k3 fd' s' name) (hin : fd' ≠ stdin) (hbuf : buf' < 2 ^ 32)
    (hpos : (k3.sysFileTable s').offset = (k1.sysFileTable s).offset)
    (hrd : step k3 (.sys (.read fd' buf' len)) = .ok k4) :
    eaxOf k3 k4 = len.toNat ∧ loadBytes k4.mem (userBuf buf' k3) len.toNat =
      slice (bufByte k1 (userBuf buf k1)) 0 len.toNat := by
  -- the store that goes with the run
  obtain ⟨σ1, -, hst1⟩ := hr1.simulates (R := IsStore) (isStore_boot hb hwf hclean)
    fun _ _ _ _ h hok hs => isStore_step h hok hs fun _ _ _ _ hcall => hcall
  obtain ⟨f, b, σ2, hb1, rfl, hoff1, hfit, hwrite, hst2⟩ := hst1.write ho1 hout h0 hw
  obtain ⟨σ3, hquiet, hst3⟩ :
      ∃ σ3, Trace (Store.Quiet 0 f.name) σ2 (log step storeCalls k2 es2) σ3 ∧ IsStore k3 σ3 :=
    hr2.simulates hst2 fun _ _ _ _ h hok hs =>
      isStore_step h hok.1 hs fun _ _ hst hc hcall =>
        ⟨hcall, fun hwr => hok.2 (writesFile_of_writesTo hst hc hs hwr)⟩
  obtain ⟨g, b', σ4, hb3, hname, hoff3, hread⟩ := hst3.read ho3 hin hbuf h0 (by omega) hrd
  have hgf : g.pos = f.pos := by exact_mod_cast hoff3.symm.trans (hpos.trans hoff1)
  exact loadBytes_eq_slice
    (Store.passes hb1 hwrite hquiet hb3 hname hgf (by rw [length_slice]; exact hread))

/-- The path of a file. -/
theorem isFilePath_a : IsFilePath [slash, 97] := ⟨rfl, by decide, by decide⟩

/-- The path `/a`. -/
abbrev pathA : FilePath := ⟨[slash, 97], isFilePath_a⟩

/-- Descriptor 3 is open on `/a`, at its begin. -/
def opensA (k : Kernel) : Bool :=
  slotOf 3 k = .ok 0 ∧ fileAt k.fs [slash, 97] = some 1 ∧
    k.sysFileTable 0 = ⟨1, (k.sysFileTable 0).linkNum, 0⟩

/-- The file is open after that, at its start. -/
theorem openOn_of_opensA (h : opensA k) : OpenOn k 3 0 pathA ∧ (k.sysFileTable 0).offset = 0 := by
  obtain ⟨hs, hat, htab⟩ := of_decide_eq_true h
  rw [htab]
  exact ⟨⟨hs, 1, hat, by rw [htab]; rfl⟩, rfl⟩

/-- The first process writes two bytes, and its child reads them through the descriptor that it has
inherited. -/
theorem file_passes_child :
    ∃ k0 k1 k2 k3 k4, boot .withPath = .ok k0 ∧ run step k0 openFirst = .ok k1 ∧
      step k1 (.sys (.write 3 0x200300 2)) = .ok k2 ∧ run step k2 handOver = .ok k3 ∧
      k3.current = .pcb 2 ∧ step k3 (.sys (.read 3 0x200400 2)) = .ok k4 ∧ eaxOf k3 k4 = 2 ∧
      loadBytes k4.mem (userBuf 0x200400 k3) 2 = slice (bufByte k1 (userBuf 0x200300 k1)) 0 2 := by
  have hrun : (checkedFrom .withPath regular openFirst).any (fun k1 => opensA k1 &&
      okAnd (step k1 (.sys (.write 3 0x200300 2))) fun k2 =>
        (checkedRun step (fun k e => regular k e) k2 handOver).any fun k3 => opensA k3 &&
          (decide (k3.current = .pcb 2) && (step k3 (.sys (.read 3 0x200400 2))).toBool)) = true := by
    decide +kernel
  obtain ⟨k1, hk1, hrun⟩ := (Option.any_eq_true _ _).mp hrun
  obtain ⟨h1, hrun⟩ := Bool.and_eq_true_iff.mp hrun
  obtain ⟨k2, hw, hrun⟩ := okAnd_eq_true.mp hrun
  obtain ⟨k3, hk3, hrun⟩ := (Option.any_eq_true _ _).mp hrun
  obtain ⟨h3, hrun⟩ := Bool.and_eq_true_iff.mp hrun
  obtain ⟨hcur, hrun⟩ := Bool.and_eq_true_iff.mp hrun
  obtain ⟨k4, hrd⟩ := exists_ok hrun
  obtain ⟨k0, hb, hr1⟩ := reaches_of_checkedFrom hk1
  have hr2 := Reaches.of_checkedRun hk3
  have hquiet : Reaches step (fun k e => regular k e ∧ ¬writesFile pathA k e) k2 handOver k3 := by
    have hno : ∀ e ∈ handOver, ∀ fd buf len, e ≠ .sys (.write fd buf len) := by
      intro e he fd buf len
      rintro rfl
      simp [handOver] at he
    exact (hr2.and hno).mono fun k e h => ⟨h.1, fun ⟨fd, buf, len, _, he, _⟩ => h.2 fd buf len he⟩
  obtain ⟨hopen1, hoff1⟩ := openOn_of_opensA h1
  obtain ⟨hopen3, hoff3⟩ := openOn_of_opensA h3
  obtain ⟨heax, hbytes⟩ := file_passes hb withPath_wellFormed withPath_cleanFiles hr1 hopen1 (by decide)
    (by decide) hw hquiet hopen3 (by decide) (by decide) (hoff3.trans hoff1.symm) hrd
  exact ⟨k0, k1, k2, k3, k4, hb, hr1.run_eq, hw, hr2.run_eq, of_decide_eq_true hcur, hrd, heax, hbytes⟩

end OsLab
