import OsLab.Files.Bounds
import OsLab.Files.Held
import OsLab.Files.NewFile

/-!
# Descriptors of files that are removed

`rmFL` marks the inode of a file as free, whoever has the file open: a slot of `sysFileTable` holds
a raw inode index, and nothing ties it to the map. `getAvlInode` hands out the lowest free inode, so
that the next file to be created gets the inode of the one that was removed, and a write through the
old descriptor goes to the new file.

* `Live`: every open slot refers to a file in use, and so does every entry of a directory.
* `careful`: the runs of opens, writes, seeks, closes and removals in which a removal frees an inode
  that no slot and no other entry refers to, and every call stays inside its arrays.
* `live_step`: its steps keep `Live`. `Live.not_wild`: and do not leave the arrays.
* `not_handed_out`: in runs of this kind the inode of an open descriptor stays with its file; the inode
  of a file that is made is one of those handed out (`allotted_of_create`).
* `removed_while_open`: a run in which a write through a descriptor changes another file.
-/

namespace OsLab

open OsLab.Lib

variable {k k' k0 k1 k2 : Kernel} {Q : Queues} {e : Event} {es es0 : List Event} {fs fs' : FileSystem}
  {st st' : FileSystem × PathBuf} {str name : List UInt8} {g g' : PathBuf} {d s i x j : ℕ} {di : Inode}
  {p : Node} {fd : ℕ} {v : ℤ} {img : Image}

/-! ### Entries of inodes in use -/

/-- No entry of a directory names a free inode. -/
def NoDangling (fs : FileSystem) : Prop :=
  ∀ d, IsDir fs d → ∀ j < NR_DIRDATA, (fs.inode d).Used j → InUse fs (fs.target d j)

/-- The index is the one of a file in use. -/
def IsFile (fs : FileSystem) (v : ℤ) : Prop :=
  ∃ x < NR_INODE, v = x ∧ InUse fs x ∧ (fs.inode x).type = FL

/-- **What the lookup finds** is a file in use. -/
theorem isFile_of_findCurrentFLPos (hd : DirsInUse fs) (hn : NoDangling fs)
    (h : findCurrentFLPos fs str g = .ok (v, g')) (hv : v ≠ -1) : IsFile fs v := by
  obtain ⟨r, hr, h⟩ := bind_eq_ok.mp h
  obtain ⟨index, hindex, h⟩ := bind_eq_ok.mp h
  obtain ⟨rfl, -⟩ := Prod.mk.inj (Except.ok.inj h)
  obtain ⟨dir, hdir, -⟩ := bind_eq_ok.mp hindex
  obtain ⟨d, hlt, hrd, -⟩ := inodeAt_inv hdir
  have hisdir : IsDir fs d := by
    rcases walked_walkFromRoot hr with hneg | ⟨y, hy, hyd⟩
    · omega
    · obtain rfl : d = y := by omega
      exact hd d hlt hyd
  rw [hrd] at hindex
  obtain ⟨-, i, hi, hname, hne, ht, hvt, hty⟩ := findEntry_inv hindex hv
  exact ⟨_, ht, hvt, hn d hisdir i hi ((Inode.slotName_used hname).mpr hne), hty⟩

/-- An open file is none of the inodes that are handed out. -/
theorem Made.isFile (h : Made fs fs' d s i name di) (hv : IsFile fs v) : IsFile fs' v := by
  obtain ⟨x, hx, rfl, huse, hty⟩ := hv
  have hne : x ≠ i := by
    rintro rfl
    exact huse h.available
  exact ⟨x, hx, rfl, h.inUse huse, by rw [h.type hne]; exact hty⟩

/-- **A new file** and its entry. -/
theorem Made.noDangling (h : Made fs fs' d s i name di) (hn : NoDangling fs) (hfl : di.type = FL) :
    NoDangling fs' := by
  intro x hx j hj hu
  have hxi : x ≠ i := by
    rintro rfl
    have hty := hx.type
    rw [h.inode_new, hfl] at hty
    exact absurd hty (by decide)
  rw [h.target_eq hxi]
  split_ifs with hnew
  · exact h.inUse_new
  · exact h.inUse (hn x (h.isDir hxi hx) j hj (h.used_old hxi hnew hu))

/-- A change of a file. -/
theorem NoDangling.setFile (hn : NoDangling fs) (hty : di.type = (fs.inode x).type)
    (hfl : (fs.inode x).type = FL) : NoDangling (fs.setInode x di) := by
  intro y hy j hj hu
  have hold := (isDir_setInode hty).mp hy
  have hyx : y ≠ x := by
    rintro rfl
    have hdir := hold.type
    rw [hfl] at hdir
    exact absurd hdir (by decide)
  unfold FileSystem.target
  rw [setInode_of_ne hyx] at hu ⊢
  exact hn y hold j hj hu

/-- An inode of the same type leaves the files files. -/
theorem isFile_setInode (hty : di.type = (fs.inode x).type) (hv : IsFile fs v) :
    IsFile (fs.setInode x di) v := by
  obtain ⟨y, hy, rfl, huse, hfl⟩ := hv
  refine ⟨y, hy, rfl, huse, ?_⟩
  by_cases hyx : y = x
  · subst hyx
    rw [setInode_self, hty]
    exact hfl
  · rw [setInode_of_ne hyx]
    exact hfl

/-- Another inode stays in use. -/
theorem inUse_free {y : ℕ} (hne : y ≠ x) (h : InUse fs y) : InUse (fs.setMap x available) y := by
  unfold InUse FileSystem.setMap
  dsimp only
  rwa [Function.update_of_ne hne]

/-- Another file is freed. -/
theorem IsFile.free (hv : IsFile fs v) (hne : v ≠ x) : IsFile (fs.setMap x available) v := by
  obtain ⟨y, hy, rfl, huse, hfl⟩ := hv
  refine ⟨y, hy, rfl, inUse_free ?_ huse, hfl⟩
  rintro rfl
  exact hne rfl

/-- An inode is freed that no entry names. -/
theorem NoDangling.free (hn : NoDangling fs)
    (hno : ∀ d, IsDir fs d → ∀ j < NR_DIRDATA, (fs.inode d).Used j → fs.target d j ≠ x) :
    NoDangling (fs.setMap x available) := by
  intro d hd j hj hu
  have hold := isDir_of_freed hd
  exact inUse_free (hno d hold j hj hu) (hn d hold j hj hu)

/-! ### What `rmFL` frees -/

/-- The inode that `rmFL` frees, and the directory and the slot that it clears. -/
def removal (fs : FileSystem) (path : List UInt8) (g : PathBuf) : Except Stop (ℤ × ℤ × Option ℕ) := do
  let r ← findCurrentFLPos fs path g
  let p ← findUpperDirPos fs path r.2
  let slot ← findSlot fs p.1 r.1
  .ok (r.1, p.1, slot)

/-- No entry of directory `d` names the inode, but the one that is cleared. -/
def onlyCleared (fs : FileSystem) (q : ℤ × ℤ × Option ℕ) (d : ℕ) : Bool :=
  ∀ j < NR_DIRDATA, (fs.inode d).Used j → (fs.target d j : ℤ) = q.1 → (d : ℤ) = q.2.1 ∧ q.2.2 = some j

/-- No slot of `sysFileTable` refers to the inode, and no entry is left. -/
def unreferenced (k : Kernel) (q : ℤ × ℤ × Option ℕ) : Bool :=
  (∀ s < MAX_SYS_FILE_NUM, (k.sysFileTable s).inodeIndex ≠ q.1) ∧
    ∀ d < NR_INODE, (k.fs.inode d).type = DIR → onlyCleared k.fs q d

/-- The path leads to a file that nothing refers to any more, or the removal stops inside its arrays. -/
def removesLast (path : ℕ) (k : Kernel) : Bool :=
  match cstring k path >>= fun str => removal k.fs str k.path with
  | .ok q => 0 ≤ q.1 ∧ q.1 < NR_INODE ∧ unreferenced k q
  | .error (.wild _) => false
  | .error _ => true

/-- The position of an open file of the current process. -/
def openOffset (fd : ℤ) (k : Kernel) : ℤ :=
  (k.sysFileTable ((k.pcb k.current).filepointer fd.toNat).toNat).offset

/-- A write through an open descriptor, at a position and to an end that are not negative. -/
def writesInside (fd len : ℤ) (k : Kernel) : Bool :=
  IsOpen k fd ∧ 0 ≤ openOffset fd k ∧ 0 ≤ len ∧ openOffset fd k + len < 2 ^ 31

/-- A write to the screen whose text ends inside the video memory. -/
def printsInside (buf : ℕ) (len : ℤ) (k : Kernel) : Bool :=
  (writeScreen k (userBuf buf k) len.toNat 0 k.screen).toBool

/-- Files are opened and closed as in `closesFirst`, written and sought through open descriptors, and
removed when nothing refers to them any more. -/
def careful (k : Kernel) : Event → Bool
  | .sys (.remove path) => removesLast path k
  | .sys (.write fd buf len) => if fd = stdout then printsInside buf len k else writesInside fd len k
  | .sys (.seek fd _ _) => IsOpen k fd
  | e => closesFirst k e

/-- A careful event is an orderly one. -/
theorem orderly_of_careful (h : careful k e) : orderly k e := by
  unfold careful at h
  split at h
  · rfl
  · rfl
  · rfl
  · exact orderly_of_closesFirst h

/-- **`rmFL` in such a state** leaves the other files, and no entry of the one that is gone. -/
theorem rmFL_unreferenced {r : FileSystem × PathBuf} (hn : NoDangling k.fs)
    (hun : ∀ q, removal k.fs str g = .ok q → unreferenced k q) (h : rmFL k.fs str g = .ok r) :
    NoDangling r.1 ∧ ∀ s < MAX_SYS_FILE_NUM, IsFile k.fs (k.sysFileTable s).inodeIndex →
      IsFile r.1 (k.sysFileTable s).inodeIndex := by
  obtain ⟨fs', g'⟩ := r
  obtain ⟨x, hx, g1, v, slot, hfl, hup, hslot, hcase⟩ := rmFL_inv h
  have hq : removal k.fs str g = .ok ((x : ℤ), v, slot) := by
    rw [removal, hfl, ok_bind, hup, ok_bind, hslot, ok_bind]
  obtain ⟨hslots, hdirs⟩ := of_decide_eq_true (hun _ hq)
  have hentries : ∀ e, IsDir k.fs e → ∀ l < NR_DIRDATA, (k.fs.inode e).Used l →
      (k.fs.target e l : ℤ) = x → (e : ℤ) = v ∧ slot = some l :=
    fun e he => of_decide_eq_true (hdirs e he.lt he.type)
  rcases hcase with ⟨rfl, rfl⟩ | ⟨d, -, rfl, j, rfl, rfl⟩
  · constructor
    · refine hn.free fun e he l hl hu ht => ?_
      obtain ⟨-, hnone⟩ := hentries e he l hl hu (by exact_mod_cast ht)
      cases hnone
    · intro s hs hv
      exact hv.free (hslots s hs)
  · constructor
    · intro e he l hl hu
      have hold : IsDir k.fs e := (isDir_setInode (by rfl)).mp (isDir_of_freed he)
      by_cases hed : e = d
      · subst hed
        have hinode : ((k.fs.setInode e ((k.fs.inode e).entry j 0 [])).setMap x available).inode e =
            (k.fs.inode e).entry j 0 [] := setInode_self
        unfold FileSystem.target
        rw [hinode] at hu ⊢
        obtain ⟨hlj, hu⟩ := (Inode.used_clear j l).mp hu
        rw [Inode.slotNo_entry (by decide), if_neg hlj]
        refine inUse_free ?_ (hn e hold l hl hu)
        intro ht
        obtain ⟨-, hjl⟩ := hentries e hold l hl hu (congrArg Int.ofNat ht)
        exact hlj (Option.some.inj hjl).symm
      · have hinode : ((k.fs.setInode d ((k.fs.inode d).entry j 0 [])).setMap x available).inode e =
            k.fs.inode e := setInode_of_ne hed
        unfold FileSystem.target
        rw [hinode] at hu ⊢
        refine inUse_free ?_ (hn e hold l hl hu)
        intro ht
        obtain ⟨hed', -⟩ := hentries e hold l hl hu (congrArg Int.ofNat ht)
        exact hed (by exact_mod_cast hed')
    · intro s hs hv
      exact (isFile_setInode (by rfl) hv).free (hslots s hs)

/-! ### Open files -/

/-- Every open slot refers to a file in use, and no entry names a free inode. -/
structure Live (k : Kernel) : Prop where
  dirs : DirsInUse k.fs
  entries : NoDangling k.fs
  slots : ∀ s < MAX_SYS_FILE_NUM, (k.sysFileTable s).inodeIndex ≠ -1 →
    IsFile k.fs (k.sysFileTable s).inodeIndex

/-- After start-up no slot is open. -/
theorem live_boot (hb : boot img = .ok k) (hd : DirsInUse img.fs) (hn : NoDangling img.fs) : Live k := by
  obtain ⟨-, nx, rfl⟩ := placed_boot hb
  refine ⟨hd, hn, ?_⟩
  intro s hs hne
  have htab : ((started img).relink nx).sysFileTable s = ⟨-1, 0, 0⟩ := if_pos hs
  rw [htab] at hne
  exact absurd rfl hne

/-- The index that `open_aux` puts into the slot is the one that the lookup finds at the end. -/
theorem openLookup_found {r : ℤ × Kernel} (h : openLookup str k = .ok r) :
    ∃ g, findCurrentFLPos r.2.fs str g = .ok (r.1, r.2.path) := by
  simp only [openLookup, bind_eq_ok] at h
  obtain ⟨e, -, q, -, i, hi, h⟩ := h
  obtain rfl := Except.ok.inj h
  exact ⟨q.2, hi⟩

/-- The slots refer to the inodes they referred to, and these are files still. -/
theorem Live.slots_congr (h : Live k)
    (hidx : ∀ s, (k'.sysFileTable s).inodeIndex = (k.sysFileTable s).inodeIndex)
    (hfile : ∀ v, IsFile k.fs v → IsFile k'.fs v) : ∀ s < MAX_SYS_FILE_NUM,
      (k'.sysFileTable s).inodeIndex ≠ -1 → IsFile k'.fs (k'.sysFileTable s).inodeIndex := by
  intro s hs hne
  rw [hidx] at hne ⊢
  exact hfile _ (h.slots s hs hne)

/-- A read, a write or a seek leaves every slot at its inode, and writes to files only. -/
theorem Live.access (h : Live k) {fd : ℤ} {a : FileAccess} (hdirs : DirsInUse k'.fs)
    (ht : slotOf fd k = .ok s) (hmoved : SlotMoved k k' s)
    (hstep : accessStep (k.sysFileTable s).inodeIndex (position k s) a = .ok (position k' s)) :
    Live k' := by
  have hidx : ∀ t, (k'.sysFileTable t).inodeIndex = (k.sysFileTable t).inodeIndex := by
    intro t
    by_cases hts : t = s
    · rw [hts]
      exact hmoved.inodeIndex
    · rw [hmoved.others t hts]
  rcases accessStep_fs hstep with hfs | ⟨buf, len, v, rfl, hw⟩
  · have hfs : k'.fs = k.fs := hfs
    refine ⟨hdirs, ?_, h.slots_congr hidx fun v hv => by rwa [hfs]⟩
    rw [hfs]
    exact h.entries
  · obtain ⟨x, -, hx, block, -, -, -, hfs⟩ := writeF_inv hw
    have hfs : k'.fs = _ := hfs
    obtain ⟨-, -, -, hlt⟩ := slotOf_eq_ok ht
    obtain ⟨y, -, hy, -, hfl⟩ := h.slots s hlt (by omega)
    obtain rfl : x = y := by omega
    refine ⟨hdirs, ?_, h.slots_congr hidx fun v hv => ?_⟩
    · rw [hfs]
      exact h.entries.setFile rfl hfl
    · rw [hfs]
      exact isFile_setInode rfl hv

/-- An open that finds or creates its file puts that file into a slot. -/
theorem Live.openFile (h : Live k) {r : ℤ × Kernel} (hdirs : DirsInUse k'.fs)
    (hlook : openLookup str k = .ok r) (hfind : r.1 ≠ -1) (hslot : openSlot r.1 r.2 = .ok k') :
    Live k' := by
  obtain ⟨t, j, ho⟩ := openSlot_opened hslot
  obtain ⟨g, hfound⟩ := openLookup_found hlook
  have hold : NoDangling r.2.fs ∧ ∀ v, IsFile k.fs v → IsFile r.2.fs v := by
    rcases openPath_inv (openLookup_eq_ok hlook) with heq | ⟨g1, g2, -, hm⟩
    · have heq : r.2.fs = k.fs := heq
      rw [heq]
      exact ⟨h.entries, fun v hv => hv⟩
    · obtain ⟨d, s, i, di, hmade, hfl, -⟩ := made_of_makeFL hm
      exact ⟨hmade.noDangling h.entries hfl, fun v => hmade.isFile⟩
  have htab : k.sysFileTable = r.2.sysFileTable := by
    rw [openLookup_rest hlook]
  rw [ho.fs] at hdirs
  refine ⟨ho.fs ▸ hdirs, ho.fs ▸ hold.1, ?_⟩
  intro s hs hne
  rw [ho.fs]
  rw [ho.sysFileTable] at hne ⊢
  by_cases hst : s = t
  · subst hst
    rw [Function.update_self]
    exact isFile_of_findCurrentFLPos hdirs hold.1 hfound hfind
  · rw [Function.update_of_ne hst, ← htab] at hne ⊢
    exact hold.2 _ (h.slots s hs hne)

/-- A close takes a file out of at most one slot. -/
theorem Live.close (h : Live k) {fd : ℤ} (hclose : closeAux fd k = .ok k') : Live k' := by
  obtain ⟨t, hcl⟩ := closeAux_closed hclose
  refine ⟨hcl.fs ▸ h.dirs, hcl.fs ▸ h.entries, ?_⟩
  rw [hcl.fs]
  intro s hs hne
  rw [hcl.sysFileTable] at hne ⊢
  by_cases hst : s = t
  · subst hst
    rw [Function.update_self] at hne ⊢
    unfold SysFile.released at hne ⊢
    split_ifs at hne ⊢
    · exact absurd rfl hne
    · exact h.slots s hs hne
  · rw [Function.update_of_ne hst] at hne ⊢
    exact h.slots s hs hne

/-- **Every step** keeps the open files alive. -/
theorem live_step (hs : Sound k Q) (h : Live k) (hc : careful k e) (hk : step k e = .ok k') :
    Live k' := by
  have hdirs : DirsInUse k'.fs := by
    rcases fs_step hs hk with hfs | ⟨op, g, hop⟩
    · rw [hfs]
      exact h.dirs
    · have h0 : DirsInUse (k.fs, k.path).1 := h.dirs
      exact dirsInUse_step h0 hop
  cases onFiles_of_step hs hk with
  | same hsame =>
    refine ⟨hdirs, ?_, ?_⟩
    · rw [hsame.fs]
      exact h.entries
    · rw [hsame.fs, hsame.sysFileTable]
      exact h.slots
  | access _ _ ht hmoved hstep => exact h.access hdirs ht hmoved hstep
  | openFile _ hstr hlook hslot =>
    have hok := orderly_of_careful hc
    simp only [orderly, finds, hstr, ok_bind, hlook] at hok
    exact h.openFile hdirs hlook (of_decide_eq_true hok) hslot
  | close _ hclose => exact h.close hclose
  | @remove path str r hu hstr hrm heq =>
    have hun : ∀ q, removal k.fs str k.path = .ok q → unreferenced k q := by
      intro q hq
      simp only [careful, removesLast, hstr, ok_bind, hq] at hc
      exact (of_decide_eq_true hc).2.2
    obtain ⟨hentries, hfiles⟩ := rmFL_unreferenced h.entries hun hrm
    refine ⟨hdirs, ?_, ?_⟩
    · rw [heq]
      exact hentries
    · rw [heq]
      exact fun s hs hne => hfiles s hs (h.slots s hs hne)
  | fork _ hfork =>
    obtain ⟨-, -, -, nx, rfl⟩ := forkAux_placed hs.placed hfork
    exact ⟨hdirs, h.entries, h.slots_congr (fun s => (addLinks_rest _ _ _ s).1) fun _ hv => hv⟩

/-- The file of an open descriptor is in use. -/
theorem Held.isFile (h : Held k p fd s) (hf : FilesKept k Q) (hl : Live k) :
    IsFile k.fs (k.sysFileTable s).inodeIndex := by
  have hlt := h.slot_lt hf.files
  refine hl.slots s hlt ?_
  intro hneg
  exact h.refs_ne_zero ((hf.files.inodeIndex s hlt).mp hneg)

/-! ### Such calls stay inside their arrays -/

/-- The inode of a slot that the handlers find is that of a file in use. -/
theorem Live.inode_lt (hl : Live k) (hf : FilesCounted k) (hc : k.current ∈ procs) {fd : ℤ}
    (ht : slotOf fd k = .ok s) : ∃ x < NR_INODE, (k.sysFileTable s).inodeIndex = x := by
  obtain ⟨h0, h8, hheld, hlt⟩ := slotOf_eq_ok ht
  have hpos : refs k s ≠ 0 := refs_ne_zero hc (by omega : fd.toNat < MAX_FP_NUM) hheld
  obtain ⟨x, hx, hv, -⟩ := hl.slots s hlt fun hneg => hpos ((hf.inodeIndex s hlt).mp hneg)
  exact ⟨x, hx, hv⟩

/-- What `removal` looks at is all that `rmFL` looks at. -/
theorem rmFL_not_wild (h : ∀ w, removal fs str g ≠ .error (.wild w))
    (hin : ∀ q, removal fs str g = .ok q → 0 ≤ q.1 ∧ q.1 < NR_INODE) (w : Access) :
    rmFL fs str g ≠ .error (.wild w) := by
  intro hwild
  cases hq : removal fs str g with
  | error e =>
    have he : rmFL fs str g = .error e := by
      simp only [removal, rmFL, bind_eq_error] at hq ⊢
      rcases hq with hq | ⟨r, hr, hq | ⟨p, hp, hq | ⟨slot, -, hq⟩⟩⟩
      · exact .inl hq
      · exact .inr ⟨r, hr, .inl hq⟩
      · exact .inr ⟨r, hr, .inr ⟨p, hp, .inl hq⟩⟩
      · cases hq
    rw [he] at hwild
    obtain rfl := Except.error.inj hwild
    exact h w hq
  | ok q =>
    obtain ⟨h0, hlt⟩ := hin q hq
    simp only [removal, bind_eq_ok] at hq
    obtain ⟨r, hr, p, hp, slot, hslot, hq⟩ := hq
    obtain rfl := Except.ok.inj hq
    obtain ⟨dir, hdir, -⟩ := bind_eq_ok.mp hslot
    rw [rmFL, hr, ok_bind, hp, ok_bind, hslot, ok_bind] at hwild
    cases slot with
    | none =>
      dsimp only at hwild h0 hlt
      rw [ok_bind, if_pos ⟨h0, hlt⟩] at hwild
      cases hwild
    | some i =>
      dsimp only at hwild h0 hlt
      rw [hdir, ok_bind, ok_bind, if_pos ⟨h0, hlt⟩] at hwild
      cases hwild

/-- **No careful call** leaves its arrays. -/
theorem Live.not_wild (hl : Live k) (hf : FilesKept k Q) {c : Syscall} (hc : careful k (.sys c))
    (w : Access) : step k (.sys c) ≠ .error (.wild w) := by
  apply step_sys_not_wild
  intro hu
  have hcur := hf.sound.placed.current_mem hu.1
  have hstep : step k (.sys c) = doSyscall k c := if_pos hu
  cases c with
  | remove path =>
    have hrem : removesLast path k := hc
    intro hwild
    simp only [doSyscall, removeAux, bind_eq_error, reduceCtorEq, and_false, exists_false, or_false]
      at hwild
    rcases hwild with hstr | ⟨str, hstr, hwild⟩
    · simp [removesLast, hstr] at hrem
    · refine rmFL_not_wild ?_ ?_ w hwild
      · intro w' hw
        simp [removesLast, hstr, hw] at hrem
      · intro q hq
        simp only [removesLast, hstr, ok_bind, hq] at hrem
        exact ⟨(of_decide_eq_true hrem).1, (of_decide_eq_true hrem).2.1⟩
  | write fd buf len =>
    have hwrite : (if fd = stdout then printsInside buf len k else writesInside fd len k) = true := hc
    split_ifs at hwrite with hout
    · obtain ⟨sc, hsc⟩ := exists_ok hwrite
      rw [doSyscall, writeAux, if_pos hout, hsc, ok_bind]
      simp
    · obtain ⟨hopen, h0, hlen, hsum⟩ := of_decide_eq_true hwrite
      obtain ⟨s, hs⟩ := (hf.files.slotOf_iff hcur).mpr hopen
      obtain ⟨x, hx, hv⟩ := hl.inode_lt hf.files hcur hs
      obtain ⟨-, -, hslot, -⟩ := slotOf_eq_ok hs
      have hoff : openOffset fd k = (k.sysFileTable s).offset := by
        rw [openOffset, hslot, Int.toNat_natCast]
      rw [hoff] at h0 hsum
      rw [Ne, doSyscall_error_iff (a := .write (bufByte k (userBuf buf k)) len)
        (by rw [Syscall.access, if_neg hout]) hs, hv]
      simp only [accessStep, position, bind_eq_error, reduceCtorEq, and_false, exists_false, or_false]
      exact writeF_not_wild hx h0 hlen hsum w
  | seek fd offset whence =>
    obtain ⟨s, hs⟩ := (hf.files.slotOf_iff hcur).mpr (of_decide_eq_true hc)
    obtain ⟨x, hx, hv⟩ := hl.inode_lt hf.files hcur hs
    rw [Ne, doSyscall_error_iff (a := .seek offset whence) rfl hs, hv]
    simp only [accessStep, position, inodeAt_eq hx]
    split_ifs <;> simp
  | _ =>
    rw [← hstep]
    refine hf.not_wild ?_ w
    exact hc

/-! ### Inodes that are handed out -/

/-- The inodes that a step takes from the free ones. -/
def allotted (k : Kernel) (_ : Event) (k' : Kernel) : List ℕ :=
  (List.range NR_INODE).filter fun x =>
    k.fs.super.inodeMap x = available ∧ k'.fs.super.inodeMap x ≠ available

/-- An inode is handed out if it was free and is in use. -/
theorem mem_allotted :
    x ∈ allotted k e k' ↔ x < NR_INODE ∧ ¬InUse k.fs x ∧ InUse k'.fs x := by
  simp [allotted, InUse]

/-- A file that `open_aux` creates gets such an inode. -/
theorem allotted_of_create {a : ℕ} {flags : ℤ} (hstr : cstring k a = .ok str)
    (hno : isFLExist k.fs str k.path = .ok (false, g)) (hk : step k (.sys (.openPath a flags)) = .ok k') :
    ∃ i : ℕ, getAvlInode k.fs = i ∧ i ∈ allotted k (.sys (.openPath a flags)) k' := by
  simp only [step] at hk
  split_ifs at hk with hu
  obtain ⟨str', hstr', hk⟩ := bind_eq_ok.mp hk
  obtain rfl : str = str' := Except.ok.inj (hstr.symm.trans hstr')
  obtain ⟨r, hlook, hslot⟩ := bind_eq_ok.mp hk
  obtain ⟨s, fd, ho⟩ := openSlot_opened hslot
  obtain ⟨g2, hmake⟩ := makeFL_of_openPath (openLookup_eq_ok hlook) hno
  obtain ⟨d, s, i, di, hmade, -, hav, -⟩ := made_of_makeFL hmake
  refine ⟨i, hav, mem_allotted.mpr ⟨hmade.lt, fun huse => huse hmade.available, ?_⟩⟩
  rw [ho.fs]
  exact hmade.inUse_new

/-- **In every careful run** the open slots refer to files in use. -/
theorem live_run (hb : boot img = .ok k0) (hd : DirsInUse img.fs) (hn : NoDangling img.fs)
    (hr : Reaches step (fun k e => careful k e) k0 es k) : (∃ Q, FilesKept k Q) ∧ Live k :=
  hr.invariant (P := fun _ k => (∃ Q, FilesKept k Q) ∧ Live k)
    ⟨⟨_, filesKept_boot hb⟩, live_boot hb hd hn⟩
    fun _ _ _ _ _ ⟨⟨_, hQ⟩, hl⟩ hc hk =>
      ⟨⟨_, filesKept_step hQ (orderly_of_careful hc) hk⟩, live_step hQ.sound hl hc hk⟩

/-- **The inode of an open descriptor** is not handed out as long as the descriptor stays open, so
that no call on it changes a file that was created in between; and no call of such a run leaves its
arrays. -/
theorem not_handed_out (hb : boot img = .ok k0) (hd : DirsInUse img.fs) (hn : NoDangling img.fs)
    (hr0 : Reaches step (fun k e => careful k e) k0 es0 k1) (h : Held k1 p fd s)
    (hr : Reaches step (fun k e => careful k e ∧ ¬closes p fd k e) k1 es k2) :
    (∃ i : ℕ, (k1.sysFileTable s).inodeIndex = i ∧ (k2.sysFileTable s).inodeIndex = i ∧
      i ∉ log step allotted k1 es ∧
      ∀ c a k3, k2.current = p → c.access k2 = some ((fd : ℤ), a) → step k2 (.sys c) = .ok k3 →
        ∀ x ∈ log step allotted k1 es, k3.fs.inode x = k2.fs.inode x) ∧
      ∀ c w, careful k2 (.sys c) → step k2 (.sys c) ≠ .error (.wild w) := by
  obtain ⟨⟨Q, hf⟩, hl⟩ := live_run hb hd hn hr0
  obtain ⟨i, -, hi, -⟩ := h.isFile hf hl
  have hrun := hr.invariant (P := fun es k => (∃ Q, FilesKept k Q) ∧ Live k ∧ Held k p fd s ∧
    (k.sysFileTable s).inodeIndex = i ∧ i ∉ log step allotted k1 es) ⟨⟨Q, hf⟩, hl, h, hi, by simp⟩ ?_
  · obtain ⟨⟨Q2, hf2⟩, hl2, hheld, hidx, hout⟩ := hrun
    refine ⟨⟨i, hi, hidx, hout, ?_⟩, fun c w hc => hl2.not_wild hf2 hc w⟩
    intro c a k3 hcur hacc hk x hx
    have hxi : x ≠ i := by
      rintro rfl
      exact hout hx
    simp only [step] at hk
    split_ifs at hk with hu
    obtain ⟨t, ht, -, hstep⟩ := access_of_doSyscall hacc hk
    obtain ⟨-, -, hslot, -⟩ := slotOf_eq_ok ht
    rw [hcur, Int.toNat_natCast, hheld.slot] at hslot
    obtain rfl : s = t := by exact_mod_cast hslot
    rcases accessStep_fs hstep with hfs | ⟨buf, len, v, rfl, hw⟩
    · exact congrArg (fun fs : FileSystem => fs.inode x) hfs
    · obtain ⟨y, -, hy, block, -, -, -, hfs⟩ := writeF_inv hw
      have hfs : k3.fs = _ := hfs
      rw [hfs, setInode_of_ne (by omega)]
      rfl
  rintro es k k' e hr ⟨⟨Q, hf⟩, hl, hheld, hidx, hout⟩ ⟨hc, hno⟩ hk
  obtain ⟨hheld', hidx', -⟩ := held_step hf hheld hno hk
  refine ⟨⟨_, filesKept_step hf (orderly_of_careful hc) hk⟩, live_step hf.sound hl hc hk, hheld',
    hidx'.trans hidx, ?_⟩
  rw [log_snoc hr.run_eq hk, List.mem_append, not_or]
  refine ⟨hout, ?_⟩
  -- the inode was in use before the step
  intro hmem
  obtain ⟨x, -, hx, huse, -⟩ := hheld.isFile hf hl
  obtain rfl : i = x := by omega
  exact (mem_allotted.mp hmem).2.1 huse

/-! ### Runs -/

/-- The file system of `Image.withDir` as it has to be at the start. -/
theorem withDir_noDangling : NoDangling Image.withDir.fs := by
  have hall : ∀ d < NR_INODE, (dirFs.inode d).type = DIR → ∀ j < NR_DIRDATA, (dirFs.inode d).Used j →
      dirFs.super.inodeMap (dirFs.target d j) ≠ available := by
    decide +kernel
  intro d hd j hj hu
  exact hall d hd.lt hd.type j hj hu

/-- The first process makes `/d/a`, and then opens `/a`. -/
def opensTwo : List Event :=
  List.replicate 10 .timer ++ [.sys (.openPath 0x200310 0), .sys (.close 3), .sys (.openPath 0x200300 0)]

/-- `/d/a` is removed, and `/b` is made. -/
def replacesOther : List Event :=
  [.sys (.remove 0x200310), .store 0x200301 98, .sys (.openPath 0x200300 0)]

/-- So `/a` keeps its inode. -/
theorem not_handed_out_other : ∃ k1 k2, runFrom .withDir opensTwo = .ok k1 ∧
    run step k1 replacesOther = .ok k2 ∧ ∃ i : ℕ, (k1.sysFileTable 0).inodeIndex = i ∧
      (k2.sysFileTable 0).inodeIndex = i ∧ i ∉ log step allotted k1 replacesOther := by
  have hrun : ((checkedFrom .withDir careful opensTwo).any fun k1 =>
      (checkedRun step (fun k e => careful k e) k1 replacesOther).isSome &&
        decide ((k1.pcb (.pcb 1)).filepointer 3 = (0 : ℕ))) = true := by
    decide +kernel
  obtain ⟨k1, hk1, hp⟩ := (Option.any_eq_true _ _).mp hrun
  rw [Bool.and_eq_true] at hp
  obtain ⟨k2, hk2⟩ := Option.isSome_iff_exists.mp hp.1
  obtain ⟨k0, hb, hr0⟩ := reaches_of_checkedFrom hk1
  have hr := (Reaches.of_checkedRun hk2).and (G := fun e => e ≠ .sys (.close 3)) (by decide)
  have hheld : Held k1 (.pcb 1) 3 0 := ⟨by decide, by decide, of_decide_eq_true hp.2⟩
  obtain ⟨⟨i, h1, h2, hout, -⟩, -⟩ := not_handed_out hb withDir_dirsInUse withDir_noDangling hr0 hheld
    (hr.mono fun k e h => ⟨h.1, fun hc => h.2 hc.2⟩)
  exact ⟨k1, k2, bind_eq_ok.mpr ⟨k0, hb, hr0.run_eq⟩, hr.run_eq, i, h1, h2, hout⟩

/-- The first process opens `/a`. -/
def opensFirst : List Event := List.replicate 10 .timer ++ [.sys (.openPath 0x200300 0)]

/-- **A write that changes another file**: `/a` is removed while it is open, and `/d/a` gets its
inode. -/
theorem removed_while_open : ¬∀ (img : Image) (k0 k1 k2 k3 : Kernel) (es0 es : List Event) (p : Node)
    (fd s : ℕ) (c : Syscall) (a : FileAccess), boot img = .ok k0 → DirsInUse img.fs → NoDangling img.fs →
    Reaches step (fun _ e => e.fileCalls) k0 es0 k1 → Held k1 p fd s →
    Reaches step (fun k e => e.fileCalls ∧ ¬closes p fd k e) k1 es k2 → k2.current = p →
    c.access k2 = some ((fd : ℤ), a) → step k2 (.sys c) = .ok k3 →
    ∀ x ∈ log step allotted k1 es, k3.fs.inode x = k2.fs.inode x := by
  intro hall
  have hrun : okAnd (runFrom .withDir opensFirst) (fun k1 =>
      decide ((k1.pcb (.pcb 1)).filepointer 3 = (0 : ℕ)) && okAnd (step k1 (.sys (.remove 0x200300)))
        fun ka => okAnd (step ka (.sys (.openPath 0x200310 0))) fun k2 =>
          decide (k2.current = .pcb 1 ∧ 2 ∈ allotted ka (.sys (.openPath 0x200310 0)) k2) &&
            okAnd (step k2 (.sys (.write 3 0x200300 1))) fun k3 =>
              decide ((k3.fs.inode 2).filesz ≠ (k2.fs.inode 2).filesz)) = true := by
    decide +kernel
  obtain ⟨k1, hk1, hp⟩ := okAnd_eq_true.mp hrun
  rw [Bool.and_eq_true] at hp
  obtain ⟨ka, hka, hp2⟩ := okAnd_eq_true.mp hp.2
  obtain ⟨k2, hk2, hp3⟩ := okAnd_eq_true.mp hp2
  rw [Bool.and_eq_true] at hp3
  obtain ⟨hcur, hnew⟩ := of_decide_eq_true hp3.1
  obtain ⟨k3, hk3, hsize⟩ := okAnd_eq_true.mp hp3.2
  obtain ⟨k0, hb, hr0⟩ := bind_eq_ok.mp hk1
  have hheld : Held k1 (.pcb 1) 3 0 := ⟨by decide, by decide, of_decide_eq_true hp.1⟩
  have hr : run step k1 [.sys (.remove 0x200300), .sys (.openPath 0x200310 0)] = .ok k2 := by
    rw [run_cons, hka, ok_bind, run_cons, hk2, ok_bind, run_nil]
  have hreach := (Reaches.of_run (G := fun e => e.fileCalls) hr (by decide)).and
    (G := fun e => e ≠ .sys (.close 3)) (by decide)
  have hin : 2 ∈ log step allotted k1 [.sys (.remove 0x200300), .sys (.openPath 0x200310 0)] := by
    simp only [log, hka, hk2, List.append_nil]
    exact List.mem_append_right _ hnew
  have hfd : (3 : ℤ) ≠ stdout := by decide
  have hacc : (Syscall.write 3 0x200300 1).access k2 =
      some (((3 : ℕ) : ℤ), .write (bufByte k2 (userBuf 0x200300 k2)) 1) := by
    rw [Syscall.access, if_neg hfd]
    rfl
  have hsame := hall _ k0 k1 k2 k3 _ _ (.pcb 1) 3 0 (.write 3 0x200300 1) _ hb withDir_dirsInUse
    withDir_noDangling (.of_run hr0 (by decide)) hheld (hreach.mono fun k e h => ⟨h.1, fun hc => h.2 hc.2⟩)
    hcur hacc hk3 2 hin
  exact of_decide_eq_true hsize (congrArg Inode.filesz hsame)

end OsLab
