import OsLab.Files.Removal

/-!
# New directories

`makeDir` writes the first two slots of the inode that it takes and sets `filenum` to 2. The other
slots are bytes of the file that had the inode before. `getAvlDirdata` passes all of them that are not
empty, the scans of the walkers stop when they have seen as many as `filenum` says.

* `FoundAt.made`: what the inner loop of the walkers finds it still finds when an entry was made, if no
  slot before names the inode that became a directory.
* `leads_of_avoids`, `avoids_of_leads`: so a way stays, exactly if it avoids the entries of that inode.
* **`new_directory_iff`**: a new directory is empty and usable exactly if nothing is left in its inode,
  the walkers come to the new slot of the parent, and no entry on the way names the inode.
* `leftover_entry`: a file is written and removed, and its byte is an entry of the next directory.
-/

namespace OsLab

open OsLab.Lib

variable {fs fs' : FileSystem} {st : FileSystem × PathBuf} {p name m f : List UInt8} {ops : List FileOp}
  {g g' g1 g2 : PathBuf} {d e s i j u : ℕ} {di : Inode} {ty : UInt32} {ms : List (List UInt8)} {v : ℤ}

/-! ### Paths of directories -/

/-- The path of a directory, with a slash at its end. -/
def dirPath (p : List UInt8) : List UInt8 := if p.getLast? = some slash then p else p ++ [slash]

/-- The path of a directory ends with a slash. -/
theorem getLast?_dirPath : (dirPath p).getLast? = some slash := by
  unfold dirPath
  split_ifs with h
  · exact h
  · simp

/-- It has no NUL if the path has none. -/
theorem zero_not_mem_dirPath (h0 : 0 ∉ p) : 0 ∉ dirPath p := by
  unfold dirPath
  split_ifs
  · exact h0
  · rw [List.mem_append, not_or]
    exact ⟨h0, by decide⟩

/-- A path that is cut like this has these directories and this last piece. -/
theorem mids_of_pieces (h : pieces p = [slash] :: (ms ++ [m])) : mids p = ms ∧ lastPiece p = m := by
  unfold mids lastPiece
  rw [h]
  constructor
  · simp
  · rw [← List.cons_append, List.getLast?_concat, Option.getD_some]

/-- **The path of a directory** is cut like the path that `makeDir` gets, and the last piece is the name
of the entry. -/
theorem pieces_dirPath (hp : p.head? = some slash) (hne : p ≠ [slash]) :
    ∃ name, pieces (dirPath p) = [slash] :: (mids p ++ [name]) ∧ name.getLast? = some slash ∧
      (name.length < MAX_FILENAME_LEN → (getLastLevelName p).length < MAX_FILENAME_LEN ∧
        withSlash (getLastLevelName p) = .ok name) := by
  have hpieces := pieces_eq hp hne
  obtain ⟨hlast, hnil, -⟩ := getLastLevelName_absolute hp hne
  have hend : p.getLast? = (lastPiece p).getLast? := by
    have hflat := flatten_pieces p
    rw [hpieces, List.flatten_append, List.flatten_singleton] at hflat
    have happ := List.getLast?_append_of_ne_nil ([slash] :: mids p).flatten hnil
    rwa [hflat] at happ
  rw [hlast]
  by_cases h : p.getLast? = some slash
  · refine ⟨lastPiece p, ?_, by rw [← hend, h], fun hlen => ⟨hlen, ?_⟩⟩
    · rw [dirPath, if_pos h, hpieces]
      rfl
    · rw [hend] at h
      rw [withSlash, h]
      exact if_neg (not_not.mpr rfl)
  · refine ⟨lastPiece p ++ [slash], ?_, by simp, fun hlen => ?_⟩
    · rw [dirPath, if_neg h, pieces_append_slash h hpieces]
      rfl
    · rw [List.length_append, List.length_singleton] at hlen
      refine ⟨by omega, ?_⟩
      rw [hend] at h
      unfold withSlash
      cases hc : (lastPiece p).getLast? with
      | none => exact absurd (List.getLast?_eq_none_iff.mp hc) hnil
      | some c =>
        rw [hc] at h
        dsimp only
        rw [if_pos fun hcs => h (by rw [hcs]), if_pos (by omega)]

/-- The path `p` of a directory as the walkers cut it: they come along `mids p` to the entry `name`. -/
structure IsDirPath (p name : List UInt8) : Prop where
  absolute : (dirPath p).head? = some slash
  zero : 0 ∉ dirPath p
  pieces : pieces (dirPath p) = [slash] :: (mids p ++ [name])
  len : ∀ q ∈ mids p ++ [name], q.length < MAX_FILENAME_LEN
  slashes : ∀ q ∈ mids p ++ [name], q.getLast? = some slash

namespace IsDirPath

variable (h : IsDirPath p name)

include h

/-- It is not the root's. -/
theorem ne : dirPath p ≠ [slash] := by
  intro heq
  have hlen := congrArg List.length h.pieces
  rw [heq] at hlen
  simp [OsLab.pieces] at hlen

/-- The directories on the way are those of the path. -/
theorem mids_eq : mids (dirPath p) = mids p := (mids_of_pieces h.pieces).1

/-- The last piece is the name. -/
theorem last_eq : lastPiece (dirPath p) = name := (mids_of_pieces h.pieces).2

/-- The name has no NUL. -/
theorem zero_name : 0 ∉ name := fun hm => h.zero (by
  rw [← flatten_pieces (dirPath p), h.pieces]
  simp [hm])

/-- The name ends with a slash. -/
theorem slash_name : name.getLast? = some slash := h.slashes name (by simp)

/-- The name is not empty. -/
theorem name_ne : name ≠ [] := by
  rintro rfl
  cases h.slash_name

/-- The names on the way fit. -/
theorem mids_len : ∀ q ∈ mids (dirPath p), q.length < MAX_FILENAME_LEN := by
  rw [h.mids_eq]
  exact fun q hq => h.len q (List.mem_append_left _ hq)

end IsDirPath

/-- **An absolute path** is cut like this; `makeDir` takes the same name from it. -/
theorem exists_isDirPath (hp : p.head? = some slash) (hne : p ≠ [slash]) (h0 : 0 ∉ p)
    (hlen : ∀ q ∈ pieces (dirPath p), q.length < MAX_FILENAME_LEN) :
    ∃ name, IsDirPath p name ∧ (getLastLevelName p).length < MAX_FILENAME_LEN ∧
      withSlash (getLastLevelName p) = .ok name := by
  obtain ⟨name, hpieces, hslash, hwith⟩ := pieces_dirPath hp hne
  rw [hpieces] at hlen
  refine ⟨name, ⟨?_, zero_not_mem_dirPath h0, hpieces, fun q hq => hlen q (List.mem_cons_of_mem _ hq), ?_⟩,
    hwith (hlen name (by simp))⟩
  · unfold dirPath
    split_ifs
    · exact hp
    · rw [List.head?_append, hp, Option.some_or]
  · intro q hq
    rcases List.mem_append.mp hq with hq | hq
    · obtain ⟨w, -, rfl⟩ : DirName q := by
        refine dirName_of_mem_dropLast (p := p) ?_ ?_
        · rintro rfl
          cases hp
        · rw [pieces_eq hp hne, List.dropLast_concat]
          exact List.mem_cons_of_mem _ hq
      simp
    · rw [List.mem_singleton.mp hq, hslash]

/-! ### What the inner loop finds when an entry was made -/

/-- The count of the parent goes up. -/
theorem Made.filenum (h : Made fs fs' d s i name di) (hd : d ≠ i) :
    (fs'.inode d).filenum = (fs.inode d).filenum + 1 := by
  rw [h.inode hd, if_pos rfl]
  rfl

/-- A creation fills one slot at most. -/
theorem Made.usedBelow_le (h : Made fs fs' d s i name di) (hd : d ≠ i) (n : ℕ) :
    (fs'.inode d).usedBelow n ≤ (fs.inode d).usedBelow n + 1 := by
  rw [h.inode hd, if_pos rfl]
  exact Inode.usedBelow_entry_le h.nameLen

/-- An entry that is found is not the new one. -/
theorem FoundAt.not_new (hf : FoundAt fs u m ty j) (h : Made fs fs' d s i name di) : ¬(u = d ∧ j = s) := by
  rintro ⟨rfl, rfl⟩
  exact hf.nameNe (Except.ok.inj (hf.named.symm.trans h.free))

/-- A directory that has a name of which there is no entry in another one. -/
theorem FoundAt.ne_of_lacks (hf : FoundAt fs u m ty j) (hno : (fs.inode d).Lacks name) (hu : u = d) :
    m ≠ name := by
  rintro rfl
  exact hno j hf.lt (hu ▸ hf.named)

/-- **What was found** is found again when an entry was made, if it has another name, the count of the
parent does not wrap around, and no slot before names the inode that is now a directory. -/
theorem FoundAt.made (h : Made fs fs' d s i name di) (h0 : 0 ∉ name) (hf : FoundAt fs u m DIR j)
    (hu : u ≠ i) (hi : (fs.inode i).type ≠ DIR) (hm : u = d → m ≠ name)
    (hcount : u = d → (fs.inode d).filenum.toNat + 1 < 2 ^ 32)
    (hpass : ∀ l < j, (fs.inode u).slotName l = .ok m → fs.target u l = i → di.type ≠ DIR) :
    FoundAt fs' u m DIR j := by
  have hold := hf.not_new h
  have htarget : fs'.target u j = fs.target u j := by rw [h.target_eq hu, if_neg hold]
  have hti : fs.target u j ≠ i := fun hti => hi (hti ▸ hf.type)
  refine ⟨hf.lt, ?_, ?_, hf.nameNe, ?_, ?_, ?_⟩
  · have hreached := hf.reached
    by_cases hud : u = d
    · subst hud
      have hle := h.usedBelow_le hu j
      have hlt := hcount rfl
      rw [h.filenum hu, UInt32.toNat_add, UInt32.toNat_one, Nat.mod_eq_of_lt hlt]
      omega
    · rwa [h.inode hu, if_neg hud]
  · rw [h.slotName_eq hu h0, if_neg hold]
    exact hf.named
  · rw [htarget]
    exact hf.target_lt
  · rw [htarget, h.type hti]
    exact hf.type
  · intro l hl
    obtain ⟨t, ht, hbefore⟩ := hf.before l hl
    rw [h.slotName_eq hu h0, h.target_eq hu]
    by_cases hnew : u = d ∧ l = s
    · exact ⟨name, if_pos hnew, fun heq => absurd heq.symm (hm hnew.1)⟩
    · refine ⟨t, by rw [if_neg hnew, ht], fun heq => ?_⟩
      obtain ⟨hlt, hty⟩ := hbefore heq
      rw [if_neg hnew]
      refine ⟨hlt, ?_⟩
      by_cases hli : fs.target u l = i
      · rw [hli, h.inode_new]
        exact hpass l hl (by rw [ht, heq]) hli
      · rwa [h.type hli]

/-- The slot that is found is the first one. -/
theorem FoundAt.unique {j' : ℕ} (h : FoundAt fs d name ty j) (h' : FoundAt fs d name ty j') : j = j' := by
  have hle : ∀ {a b}, FoundAt fs d name ty a → FoundAt fs d name ty b → a ≤ b := by
    intro a b ha hb
    by_contra hlt
    obtain ⟨t, ht, hbefore⟩ := ha.before b (by omega)
    exact (hbefore (Except.ok.inj (ht.symm.trans hb.named))).2 hb.type
  exact Nat.le_antisymm (hle h h') (hle h' h)

/-! ### The way to the parent -/

/-- The way from directory `d` along these names passes no entry of inode `i`. -/
def Avoids (fs : FileSystem) (i : ℕ) : ℕ → List (List UInt8) → Prop
  | _, [] => True
  | d, m :: ms => ∃ j, FoundAt fs d m DIR j ∧
      (∀ l < j, (fs.inode d).slotName l = .ok m → fs.target d l ≠ i) ∧ Avoids fs i (fs.target d j) ms

/-- A free inode is no directory. -/
theorem Made.type_ne (h : Made fs fs' d s i name di) (hd : DirsInUse fs) : (fs.inode i).type ≠ DIR :=
  fun hty => (hd i h.lt (.inr hty)).inUse h.available

/-- A directory that was found is a directory. -/
theorem FoundAt.isDir (hf : FoundAt fs u m DIR j) (hd : DirsInUse fs) : IsDir fs (fs.target u j) :=
  hd _ hf.target_lt (.inr hf.type)

/-- **A way stays** when an entry was made, if it avoids the inode that has become a directory. -/
theorem leads_of_avoids (h : Made fs fs' d s i name di) (h0 : 0 ∉ name) (hd : DirsInUse fs)
    (hno : (fs.inode d).Lacks name) (hcount : (fs.inode d).filenum.toNat + 1 < 2 ^ 32) (hu : IsDir fs u)
    (hav : di.type = DIR → Avoids fs i u ms) (hw : Leads fs u ms e) : Leads fs' u ms e := by
  induction ms generalizing u with
  | nil => exact hw
  | cons m ms ih =>
    obtain ⟨u', hfind, hw⟩ := hw
    obtain ⟨-, j, hf, hv⟩ := findEntry_eq_iff.mp ⟨hfind, by omega⟩
    obtain rfl : u' = fs.target u j := by exact_mod_cast hv
    have hui := h.ne_of_inUse hu.inUse
    have hpass : ∀ l < j, (fs.inode u).slotName l = .ok m → fs.target u l = i → di.type ≠ DIR := by
      intro l hl hname hti hdir
      obtain ⟨j', hf', hpass, -⟩ := hav hdir
      obtain rfl := hf.unique hf'
      exact hpass l hl hname hti
    have hf' := hf.made h h0 hui (h.type_ne hd) (hf.ne_of_lacks hno) (fun _ => hcount) hpass
    have htarget : fs'.target u j = fs.target u j := by rw [h.target_eq hui, if_neg (hf.not_new h)]
    refine ⟨fs.target u j, (findEntry_eq_iff.mpr ⟨hu.lt, j, hf', by rw [htarget]⟩).1, ?_⟩
    refine ih (hf.isDir hd) (fun hdir => ?_) hw
    obtain ⟨j', hf', -, hrest⟩ := hav hdir
    obtain rfl := hf.unique hf'
    exact hrest

/-! ### A way through the new directory -/

/-- A new directory has no entry of a name that ends in a slash. -/
theorem FoundAt.newDir_name (h : Made fs fs' d s i name (newDir (fs.inode i) name i d))
    (hclean : ∀ l < NR_DIRDATA, 2 ≤ l → ¬(fs.inode i).Used l) (hf : FoundAt fs' i m ty j) :
    m.getLast? ≠ some slash := by
  have hname := hf.named
  rw [h.inode_new, slotName_newDir] at hname
  split_ifs at hname with h1 h2
  · rw [← Except.ok.inj hname]
    decide
  · rw [← Except.ok.inj hname]
    decide
  · exact absurd ((Inode.slotName_used hname).mpr hf.nameNe) (hclean j hf.lt (by omega))

/-- So no way to an entry of such a name goes through it. -/
theorem not_leads_newDir (h : Made fs fs' d s i name (newDir (fs.inode i) name i d))
    (hclean : ∀ l < NR_DIRDATA, 2 ≤ l → ¬(fs.inode i).Used l) (hms : ∀ q ∈ ms, q.getLast? = some slash)
    (hm : m.getLast? = some slash) (hw : Leads fs' i ms e) : ¬FoundAt fs' e m DIR j := by
  intro hf
  cases ms with
  | nil =>
    obtain rfl : i = e := hw
    exact hf.newDir_name h hclean hm
  | cons q ms =>
    obtain ⟨u', hfind, -⟩ := hw
    obtain ⟨-, l, hl, -⟩ := findEntry_eq_iff.mp ⟨hfind, by omega⟩
    exact hl.newDir_name h hclean (hms q List.mem_cons_self)

/-- An entry that is found in front of the one that was found before leads to the new directory. -/
theorem FoundAt.target_of_lt {j' l : ℕ} (h : Made fs fs' d s i name di) (h0 : 0 ∉ name)
    (hdir : di.type = DIR) (hu : u ≠ i) (hf : FoundAt fs u m DIR j) (hf' : FoundAt fs' u m DIR j')
    (hl : l < j) (hname : (fs.inode u).slotName l = .ok m) (hti : fs.target u l = i) :
    fs'.target u j' = i := by
  by_cases hnew : u = d ∧ j' = s
  · rw [h.target_eq hu, if_pos hnew]
  have hold : ¬(u = d ∧ l = s) := by
    rintro ⟨rfl, rfl⟩
    exact hf.nameNe (Except.ok.inj (hname.symm.trans h.free))
  have hnamed := hf'.named
  have hty := hf'.type
  rw [h.slotName_eq hu h0, if_neg hnew] at hnamed
  rw [h.target_eq hu, if_neg hnew] at hty ⊢
  -- the search does not pass the slot of the inode
  have hle : j' ≤ l := by
    by_contra hlt
    obtain ⟨t, ht, hbefore⟩ := hf'.before l (by omega)
    rw [h.slotName_eq hu h0, if_neg hold, hname] at ht
    refine (hbefore (Except.ok.inj ht).symm).2 ?_
    rw [h.target_eq hu, if_neg hold, hti, h.inode_new, hdir]
  obtain ⟨t, ht, hbefore⟩ := hf.before j' (by omega)
  by_contra hne
  rw [h.type hne] at hty
  exact (hbefore (Except.ok.inj (ht.symm.trans hnamed))).2 hty

/-- **A way that ends in front of the new entry** was the way to the parent, and avoids the inode. -/
theorem avoids_of_leads (h : Made fs fs' d s i name (newDir (fs.inode i) name i d)) (h0 : 0 ∉ name)
    (hd : DirsInUse fs) (hno : (fs.inode d).Lacks name) (hslash : name.getLast? = some slash)
    (hclean : ∀ l < NR_DIRDATA, 2 ≤ l → ¬(fs.inode i).Used l) (hms : ∀ q ∈ ms, q.getLast? = some slash)
    (hu : IsDir fs u) (hw : Leads fs u ms d) (hw' : Leads fs' u ms e) (hf : FoundAt fs' e name DIR j) :
    Avoids fs i u ms ∧ e = d := by
  induction ms generalizing u with
  | nil =>
    obtain rfl : u = d := hw
    obtain rfl : u = e := hw'
    exact ⟨trivial, rfl⟩
  | cons m ms ih =>
    obtain ⟨u1, hfind, hw⟩ := hw
    obtain ⟨u2, hfind', hw'⟩ := hw'
    obtain ⟨-, j1, hf1, hv1⟩ := findEntry_eq_iff.mp ⟨hfind, by omega⟩
    obtain ⟨-, j2, hf2, hv2⟩ := findEntry_eq_iff.mp ⟨hfind', by omega⟩
    obtain rfl : u1 = fs.target u j1 := by exact_mod_cast hv1
    obtain rfl : u2 = fs'.target u j2 := by exact_mod_cast hv2
    have hui := h.ne_of_inUse hu.inUse
    have hrest : ∀ q ∈ ms, q.getLast? = some slash := fun q hq => hms q (List.mem_cons_of_mem _ hq)
    by_cases hpass : ∀ l < j1, (fs.inode u).slotName l = .ok m → fs.target u l ≠ i
    · have hcount : u = d → (fs.inode d).filenum.toNat + 1 < 2 ^ 32 := by
        rintro rfl
        have hreached := hf2.reached
        have hlt := (fs.inode u).filenum.toNat_lt
        rw [h.filenum hui, UInt32.toNat_add, UInt32.toNat_one] at hreached
        omega
      have hf1' := hf1.made h h0 hui (h.type_ne hd) (hf1.ne_of_lacks hno) hcount
        fun l hl hname hti => absurd hti (hpass l hl hname)
      obtain rfl := hf1'.unique hf2
      rw [h.target_eq hui, if_neg (hf1.not_new h)] at hw'
      obtain ⟨hav, he⟩ := ih hrest (hf1.isDir hd) hw hw'
      exact ⟨⟨j1, hf1, hpass, hav⟩, he⟩
    · push Not at hpass
      obtain ⟨l, hl, hname, hti⟩ := hpass
      rw [hf1.target_of_lt h h0 rfl hui hf2 hl hname hti] at hw'
      exact absurd hf (not_leads_newDir h hclean hrest hslash hw')

/-! ### The new entry -/

/-- **The new entry** is found, if its name is new, the slots before can be read and `filenum` is not
reached before. -/
theorem foundAt_new (h : Made fs fs' d s i name di) (h0 : 0 ∉ name) (hnil : name ≠ []) (hdi : d ≠ i)
    (hno : (fs.inode d).Lacks name) (hread : ∀ l < s, ∃ t, (fs.inode d).slotName l = .ok t)
    (hreach : (fs.inode d).usedBelow s < ((fs.inode d).filenum + 1).toNat) (hty : di.type = ty) :
    FoundAt fs' d name ty s := by
  have htarget : fs'.target d s = i := by rw [h.target_eq hdi, if_pos ⟨rfl, rfl⟩]
  refine ⟨h.slot, ?_, ?_, hnil, ?_, ?_, ?_⟩
  · rw [h.filenum hdi, h.inode hdi, if_pos rfl]
    exact lt_of_eq_of_lt (Inode.usedBelow_entry_self h.nameLen) hreach
  · rw [h.slotName_eq hdi h0, if_pos ⟨rfl, rfl⟩]
  · rw [htarget]
    exact h.lt
  · rw [htarget, h.inode_new, hty]
  · intro l hl
    obtain ⟨t, ht⟩ := hread l hl
    refine ⟨t, ?_, ?_⟩
    · rw [h.slotName_eq hdi h0, if_neg (by omega), ht]
    · rintro rfl
      exact absurd ht (hno l (by have := h.slot; omega))

/-- Where it is found, `filenum` is not reached before. -/
theorem FoundAt.slot_lt (h : Made fs fs' d s i name di) (h0 : 0 ∉ name) (hdi : d ≠ i)
    (hno : (fs.inode d).Lacks name) (hfull : ∀ l < s, (fs.inode d).Used l)
    (hf : FoundAt fs' d name ty j) : s < ((fs.inode d).filenum + 1).toNat := by
  have hjs : j = s := by
    by_contra hjs
    have hnamed := hf.named
    rw [h.slotName_eq hdi h0, if_neg fun hx => hjs hx.2] at hnamed
    exact hno j hf.lt hnamed
  have hreached := hf.reached
  rw [hjs, h.filenum hdi, h.inode hdi, if_pos rfl] at hreached
  have hself : ((fs.inode d).entry s (wordOf i) name).usedBelow s = s := by
    rw [Inode.usedBelow_entry_self h.nameLen, Inode.usedBelow_of_used hfull]
  exact lt_of_eq_of_lt hself.symm hreached

/-! ### Empty and usable -/

/-- Inode `i` is an empty directory in directory `d`; the path `p` leads to it, and to every new file
that is made in it. -/
structure NewDirectory (fs : FileSystem) (p : List UInt8) (d i : ℕ) : Prop where
  only : ∀ j < NR_DIRDATA, (fs.inode i).Used j → j < 2
  self : (fs.inode i).slotName 0 = .ok [dot] ∧ fs.target i 0 = i
  parent : (fs.inode i).slotName 1 = .ok [dot, dot] ∧ fs.target i 1 = d
  found : ∀ g, ∃ g', findCurrentDirPos fs (dirPath p) g = .ok ((i : ℤ), g')
  files : ∀ (f : List UInt8) (data : Option (List UInt8)) (x : ℕ), f ≠ [] → slash ∉ f → 0 ∉ f →
    f.length < MAX_FILENAME_LEN → (∀ t, data = some t → t.length < MAX_FILE_SZ_KB * 1024) →
    (fs.inode i).Lacks f → getAvlInode fs = x → ∀ g, ∃ fs' g', makeFL fs (dirPath p ++ f) data g = .ok (fs', g') ∧
      ∀ g, ∃ g', findCurrentFLPos fs' (dirPath p ++ f) g = .ok ((x : ℤ), g')

/-- The slots of the new directory. -/
theorem Made.used_newDir (h : Made fs fs' d s i name (newDir (fs.inode i) name i d)) :
    (fs'.inode i).Used j ↔ j = 1 ∨ j = 0 ∨ (fs.inode i).Used j := by
  rw [h.inode_new]
  exact (Inode.used_entry (by decide) (by decide) j).trans
    (or_congr Iff.rfl (Inode.used_entry (by decide) (by decide) j))

/-- The first two entries of a new directory name itself and the one above. -/
theorem Made.target_newDir (h : Made fs fs' d s i name (newDir (fs.inode i) name i d)) :
    fs'.target i 0 = i ∧ fs'.target i 1 = d := by
  have hi : i < 32 := h.lt
  have hd : d < 32 := h.parent
  unfold FileSystem.target
  rw [h.inode_new, slotNo_newDir, slotNo_newDir]
  constructor
  · have := toNat_wordOf (x := i) (by omega) (by omega)
    exact_mod_cast this
  · have := toNat_wordOf (x := d) (by omega) (by omega)
    exact_mod_cast this

/-- They are `.` and `..`. -/
theorem Made.slotName_newDir (h : Made fs fs' d s i name (newDir (fs.inode i) name i d)) :
    (fs'.inode i).slotName 0 = .ok [dot] ∧ (fs'.inode i).slotName 1 = .ok [dot, dot] := by
  rw [h.inode_new, OsLab.slotName_newDir, OsLab.slotName_newDir]
  exact ⟨rfl, rfl⟩

/-- Nothing is left in the inode: the new directory can be read. -/
theorem Made.readable_newDir (h : Made fs fs' d s i name (newDir (fs.inode i) name i d))
    (hclean : ∀ l < NR_DIRDATA, 2 ≤ l → ¬(fs.inode i).Used l) : (fs'.inode i).Readable := by
  intro j hj
  have hslot : ∃ t, (fs'.inode i).slotName j = .ok t := by
    rw [h.inode_new, OsLab.slotName_newDir]
    split_ifs
    · exact ⟨_, rfl⟩
    · exact ⟨_, rfl⟩
    · exact ⟨_, Inode.slotName_of_not_used (hclean j hj (by omega))⟩
  obtain ⟨t, ht⟩ := hslot
  rw [ht, Inode.nameAt_of_slotName ht]

/-- The path of a file in a directory. -/
theorem pieces_fileIn (hpieces : pieces (dirPath p) = [slash] :: ms) (hnil : f ≠ []) (hf : slash ∉ f) :
    pieces (dirPath p ++ f) = ([slash] :: ms) ++ [f] := by
  rw [pieces_append getLast?_dirPath, hpieces,
    pieces_singleton (fun hm => hf (List.mem_of_mem_dropLast hm)) hnil]

/-- A file made in the new directory has an entry there that the lookup reaches, and the way to the
directory stays. -/
theorem Made.foundAt_fileIn (h : Made fs fs' d s i name (newDir (fs.inode i) name i d))
    (hdirs : DirsInUse fs') (hclean : ∀ l < NR_DIRDATA, 2 ≤ l → ¬(fs.inode i).Used l) (hnil : f ≠ [])
    (h0f : 0 ∉ f) (hno : (fs'.inode i).Lacks f) {fs2 : FileSystem} {s2 x : ℕ}
    (hmade : Made fs' fs2 i s2 x f di) (hty : di.type = FL) (hix : i ≠ x) (hw : Leads fs' 0 ms i) :
    FoundAt fs2 i f FL s2 ∧ Leads fs2 0 ms i := by
  have hread := h.readable_newDir hclean
  have hsize : (fs'.inode i).filenum = 2 := by
    rw [h.inode_new]
    rfl
  have hcount : (fs'.inode i).Counted := by
    rw [h.inode_new]
    exact counted_newDir hclean
  have hreach : (fs'.inode i).usedBelow s2 < ((fs'.inode i).filenum + 1).toNat := by
    have hmono := (fs'.inode i).usedBelow_mono (Nat.le_of_lt hmade.slot)
    unfold Inode.Counted at hcount
    rw [hsize] at hcount ⊢
    have h2 : (2 : UInt32).toNat = 2 := rfl
    have h3 : (2 + 1 : UInt32).toNat = 3 := rfl
    omega
  constructor
  · refine foundAt_new hmade h0f hnil hix hno (fun l hl => ⟨_, hread l ?_⟩) hreach hty
    have := hmade.slot
    omega
  · refine leads_of_avoids hmade h0f hdirs hno ?_ (hdirs 0 (by decide) (.inl rfl)) ?_ hw
    · rw [hsize]
      decide
    · rw [hty]
      exact fun hdi => absurd hdi (by decide)

/-- **A file in the new directory** is found, when nothing is left in its inode and there is a way to
it. -/
theorem Made.file_found (h : Made fs fs' d s i name (newDir (fs.inode i) name i d)) (hd : DirsInUse fs)
    (hpath : IsDirPath p name) (hclean : ∀ l < NR_DIRDATA, 2 ≤ l → ¬(fs.inode i).Used l)
    (hw : Leads fs' 0 (mids p ++ [name]) i) {data : Option (List UInt8)} {x : ℕ} (hnil : f ≠ [])
    (hf : slash ∉ f) (h0f : 0 ∉ f) (hflen : f.length < MAX_FILENAME_LEN)
    (hdata : ∀ t, data = some t → t.length < MAX_FILE_SZ_KB * 1024) (hno : (fs'.inode i).Lacks f)
    (hx : getAvlInode fs' = x) (g : PathBuf) :
    ∃ fs'' g', makeFL fs' (dirPath p ++ f) data g = .ok (fs'', g') ∧
      ∀ g, ∃ g', findCurrentFLPos fs'' (dirPath p ++ f) g = .ok ((x : ℤ), g') := by
  have hall := pieces_fileIn hpath.pieces hnil hf
  obtain ⟨hmids, hlast⟩ := mids_of_pieces hall
  have hname := getLastLevelName_pieces hall
  have habs : (dirPath p ++ f).head? = some slash := by
    rw [List.head?_append, hpath.absolute, Option.some_or]
  have hne : dirPath p ++ f ≠ [slash] := by
    intro heq
    have hlen := congrArg List.length hall
    rw [heq] at hlen
    simp [pieces] at hlen
  have h0 : 0 ∉ dirPath p ++ f := by
    rw [List.mem_append, not_or]
    exact ⟨hpath.zero, h0f⟩
  have hmlen : ∀ q ∈ mids (dirPath p ++ f), q.length < MAX_FILENAME_LEN := by
    rw [hmids]
    exact hpath.len
  have hw : Leads fs' 0 (mids (dirPath p ++ f)) i := by rwa [hmids]
  have hdirs := h.dirsInUse hd
  have hdir : IsDir fs' i := hdirs i h.lt (.inr (by rw [h.inode_new]; rfl))
  -- the file is made
  obtain ⟨g1, hup⟩ := findUpperDirPos_of_leads habs hne h0 hmlen hw g
  have hfree : ¬(fs'.inode i).Used 2 := by
    rw [h.used_newDir]
    simp [hclean 2 (by decide) (by decide)]
  obtain ⟨s2, hslot⟩ := getAvlDirdata_ok h.lt (h.readable_newDir hclean) ⟨2, by decide, hfree⟩
  have hne1 : getAvlInode fs' ≠ -1 := by omega
  obtain ⟨x', hxlt, hx', -⟩ := getAvlInode_spec hne1
  obtain rfl : x = x' := by exact_mod_cast hx.symm.trans hx'
  obtain ⟨fs2, hmake⟩ : ∃ fs2, makeFL fs' (dirPath p ++ f) data g = .ok (fs2, g1) :=
    ⟨_, makeFL_ok hx hup h.lt hxlt hslot (by rwa [hname]) hdata⟩
  refine ⟨fs2, g1, hmake, ?_⟩
  obtain ⟨d', s', y, di, hmade, hty, hav, hup', -⟩ := made_of_makeFL hmake
  rw [hname] at hmade
  obtain rfl : x = y := by exact_mod_cast hx.symm.trans hav
  obtain rfl : i = d' := by exact_mod_cast (Prod.mk.inj (Except.ok.inj (hup.symm.trans hup'))).1
  have hix := hmade.ne_of_inUse hdir.inUse
  -- it is found
  obtain ⟨hfound, hway⟩ := h.foundAt_fileIn hdirs hclean hnil h0f hno hmade hty hix hw
  intro g
  rw [← hlast] at hfound
  obtain ⟨g', hfl⟩ := findCurrentFLPos_of_foundAt habs hne h0 hmlen h.lt hway hfound g
  refine ⟨g', ?_⟩
  rw [hfl, hmade.target_eq hix, if_pos ⟨rfl, rfl⟩]

/-- **Enough for a new directory**: the inode is clean, the new slot is not behind `filenum` and the way
avoids the inode. -/
theorem Made.newDirectory (h : Made fs fs' d s i name (newDir (fs.inode i) name i d)) (hd : DirsInUse fs)
    (hpath : IsDirPath p name) (hway : Leads fs 0 (mids p) d) (hno : (fs.inode d).Lacks name)
    (hread : ∀ l < s, ∃ t, (fs.inode d).slotName l = .ok t)
    (hclean : ∀ l < NR_DIRDATA, 2 ≤ l → ¬(fs.inode i).Used l)
    (hreach : s < ((fs.inode d).filenum + 1).toNat) (hav : Avoids fs i 0 (mids p)) (hdi : d ≠ i) :
    NewDirectory fs' p d i := by
  have hbelow : (fs.inode d).usedBelow s < ((fs.inode d).filenum + 1).toNat := by
    refine lt_of_le_of_lt ?_ hreach
    exact (countOf_le _ _ _).trans (by rw [Finset.card_range])
  have hf : FoundAt fs' d name DIR s := foundAt_new h hpath.zero_name hpath.name_ne hdi hno hread hbelow rfl
  have hcount : (fs.inode d).filenum.toNat + 1 < 2 ^ 32 := by
    have hlt := (fs.inode d).filenum.toNat_lt
    rw [UInt32.toNat_add, UInt32.toNat_one] at hreach
    omega
  have hleads := leads_of_avoids h hpath.zero_name hd hno hcount (hd 0 (by decide) (.inl rfl))
    (fun _ => hav) hway
  have htarget : fs'.target d s = i := (h.target_eq hdi).trans (if_pos ⟨rfl, rfl⟩)
  have hway' := leads_concat.mpr ⟨d, hleads, (findEntry_eq_iff.mpr ⟨h.parent, s, hf, rfl⟩).1⟩
  rw [htarget] at hway'
  constructor
  · intro j hj hu
    by_contra hge
    rcases h.used_newDir.mp hu with rfl | rfl | hu
    · omega
    · omega
    · exact hclean j hj (by omega) hu
  · exact ⟨h.slotName_newDir.1, h.target_newDir.1⟩
  · exact ⟨h.slotName_newDir.2, h.target_newDir.2⟩
  · intro g
    obtain ⟨g', hfound⟩ := findCurrentDirPos_of_foundAt hpath.absolute hpath.ne hpath.zero hpath.mids_len
      h.parent (by rwa [hpath.mids_eq]) (by rwa [hpath.last_eq]) g
    rw [htarget] at hfound
    exact ⟨g', hfound⟩
  · intro f data x hnil hf h0f hflen hdata hnof hx g
    exact h.file_found hd hpath hclean hway' hnil hf h0f hflen hdata hnof hx g

/-- **And needed for it.** -/
theorem Made.of_newDirectory (h : Made fs fs' d s i name (newDir (fs.inode i) name i d))
    (hd : DirsInUse fs) (hpath : IsDirPath p name) (hway : Leads fs 0 (mids p) d)
    (hno : (fs.inode d).Lacks name) (hfull : ∀ l < s, (fs.inode d).Used l) (hdi : d ≠ i)
    (hnew : NewDirectory fs' p d i) :
    (∀ j < NR_DIRDATA, 2 ≤ j → ¬(fs.inode i).Used j) ∧ s < ((fs.inode d).filenum + 1).toNat ∧
      Avoids fs i 0 (mids p) := by
  have hclean : ∀ j < NR_DIRDATA, 2 ≤ j → ¬(fs.inode i).Used j := by
    intro j hj h2 hu
    have := hnew.only j hj (h.used_newDir.mpr (.inr (.inr hu)))
    omega
  obtain ⟨g', hfound⟩ := hnew.found ⟨0, fun _ => 0⟩
  obtain ⟨e, j, hleads, hf, -⟩ :=
    foundAt_of_findCurrentDirPos hpath.absolute hpath.ne hpath.zero hfound (by omega)
  rw [hpath.mids_eq] at hleads
  rw [hpath.last_eq] at hf
  obtain ⟨hav, rfl⟩ := avoids_of_leads h hpath.zero_name hd hno hpath.slash_name hclean
    (fun q hq => hpath.slashes q (List.mem_append_left _ hq)) (hd 0 (by decide) (.inl rfl)) hway hleads hf
  exact ⟨hclean, hf.slot_lt h hpath.zero_name hdi hno hfull, hav⟩

/-- **One `makeDir`** of a directory that is not there, in any file system whose directories are in
use. -/
theorem DirsInUse.makeDir_iff (hd : DirsInUse fs) (hp : p.head? = some slash) (hne : p ≠ [slash])
    (h0 : 0 ∉ p) (hlen : ∀ q ∈ pieces (dirPath p), q.length < MAX_FILENAME_LEN)
    (hparent : findUpperDirPos fs p g1 = .ok ((d : ℤ), g2)) (hslot : getAvlDirdata fs d = .ok (s : ℤ))
    (hinode : getAvlInode fs = i) (hno : (fs.inode d).Lacks (lastPiece (dirPath p))) (g : PathBuf) :
    (∃ fs' g', makeDir fs p g = .ok (fs', g') ∧ NewDirectory fs' p d i) ↔
      (∀ j < NR_DIRDATA, 2 ≤ j → ¬(fs.inode i).Used j) ∧ s < ((fs.inode d).filenum + 1).toNat ∧
        Avoids fs i 0 (mids p) := by
  obtain ⟨name, hpath, hllen, hname⟩ := exists_isDirPath hp hne h0 hlen
  rw [hpath.last_eq] at hno
  have hway := leads_of_findUpperDirPos hp hne h0 hparent
  obtain ⟨g3, hup⟩ := findUpperDirPos_of_leads hp hne h0
    (fun q hq => hpath.len q (List.mem_append_left _ hq)) hway g
  obtain ⟨hdlt, s', hs, hss, hfree, hfirst⟩ := getAvlDirdata_inv hslot (by omega)
  obtain rfl : s = s' := by exact_mod_cast hss
  have hne1 : getAvlInode fs ≠ -1 := by omega
  obtain ⟨i', hi, hii, hmap⟩ := getAvlInode_spec hne1
  obtain rfl : i = i' := by exact_mod_cast hinode.symm.trans hii
  have hdir : IsDir fs d := hd.isDir_of_walked (walked_findUpperDirPos hparent) hdlt
  have hdi : d ≠ i := by
    rintro rfl
    exact hdir.inUse hmap
  have hmake := makeDir_eq hinode hup hdlt hi hslot hllen hname
  rw [linked_inode_of_ne hdi.symm] at hmake
  have h : Made fs (installed (linked fs d s i name) i (newDir (fs.inode i) name i d)) d s i name
      (newDir (fs.inode i) name i d) := ⟨hi, hmap, hdlt, hs, hfree, hpath.len name (by simp), rfl⟩
  constructor
  · rintro ⟨fs', g', hmake', hnew⟩
    obtain ⟨rfl, rfl⟩ := Prod.mk.inj (Except.ok.inj (hmake.symm.trans hmake'))
    refine h.of_newDirectory hd hpath hway hno (fun l hl => ?_) hdi hnew
    obtain ⟨t, htne, ht⟩ := hfirst l hl
    exact (Inode.slotName_used ht).mpr htne
  · rintro ⟨hclean, hreach, hav⟩
    have hread := fun l hl => (hfirst l hl).imp fun t ht => ht.2
    exact ⟨_, _, hmake, h.newDirectory hd hpath hway hno hread hclean hreach hav hdi⟩

/-- In every state that is reached from a formatted file system the directories are in use. -/
theorem dirsInUse_of_run (h : Unused fs) (hr : run fileStep (makeRootDir fs, g') ops = .ok st) :
    DirsInUse st.1 :=
  (Reaches.of_run (G := fun _ => True) hr fun _ _ => trivial).invariant (P := fun _ st => DirsInUse st.1)
    (grown_makeRootDir h).dirs fun _ _ _ _ _ hd _ hk => dirsInUse_step hd hk

/-- **A new directory is empty and usable**, in every file system that creations, writes and removals
have made out of an empty one, exactly if nothing is left in its inode behind the first two slots, its
slot in the parent is not behind `filenum`, and the way to the parent avoids the entries that name the
free inode. -/
theorem new_directory_iff (h : Unused fs) (hr : run fileStep (makeRootDir fs, g') ops = .ok st)
    (path : CString) (hp : path.val.head? = some slash) (hne : path.val ≠ [slash])
    (hlen : ∀ q ∈ pieces (dirPath path.val), q.length < MAX_FILENAME_LEN)
    (hparent : findUpperDirPos st.1 path.val g1 = .ok ((d : ℤ), g2))
    (hslot : getAvlDirdata st.1 d = .ok (s : ℤ)) (hinode : getAvlInode st.1 = i)
    (hno : (st.1.inode d).Lacks (lastPiece (dirPath path.val))) (g : PathBuf) :
    (∃ fs' g', makeDir st.1 path.val g = .ok (fs', g') ∧ NewDirectory fs' path.val d i) ↔
      (∀ j < NR_DIRDATA, 2 ≤ j → ¬(st.1.inode i).Used j) ∧
        s < ((st.1.inode d).filenum + 1).toNat ∧ Avoids st.1 i 0 (mids path.val) :=
  (dirsInUse_of_run h hr).makeDir_iff hp hne path.property hlen hparent hslot hinode hno g

/-- A name that no slot has is lacking. -/
theorem lacks_of_nameAt (h : ∀ j < NR_DIRDATA, di.nameAt j ≠ name) : di.Lacks name :=
  fun j hj hname => h j hj (Inode.nameAt_of_slotName hname)

/-- A file is opened and removed, and a directory gets its inode. -/
theorem new_directory_iff_removed :
    ∃ st fs' g', run fileStep (makeRootDir zeroFs, ⟨0, fun _ => 0⟩)
        [.openPath ⟨[slash, 97], by decide⟩, .remove ⟨[slash, 97], by decide⟩] = .ok st ∧
      makeDir st.1 [slash, 100] ⟨0, fun _ => 0⟩ = .ok (fs', g') ∧ NewDirectory fs' [slash, 100] 0 1 := by
  have hrun : okAnd (run fileStep (makeRootDir zeroFs, ⟨0, fun _ => 0⟩)
      [.openPath ⟨[slash, 97], by decide⟩, .remove ⟨[slash, 97], by decide⟩]) (fun st =>
        okAnd (findUpperDirPos st.1 [slash, 100] ⟨0, fun _ => 0⟩) (fun r => r.1 = 0) &&
        okAnd (getAvlDirdata st.1 0) (· = 2) && decide (getAvlInode st.1 = 1) &&
        decide (∀ j < NR_DIRDATA, (st.1.inode 0).nameAt j ≠ [100, slash]) &&
        decide (∀ j < NR_DIRDATA, 2 ≤ j → ¬(st.1.inode 1).Used j) &&
        decide (2 < ((st.1.inode 0).filenum + 1).toNat)) = true := by
    decide +kernel
  obtain ⟨st, hst, hp⟩ := okAnd_eq_true.mp hrun
  simp only [Bool.and_eq_true, decide_eq_true_eq] at hp
  obtain ⟨⟨⟨⟨⟨hup, hslot⟩, hinode⟩, hno⟩, hclean⟩, hreach⟩ := hp
  obtain ⟨⟨v, g1⟩, hup, hv⟩ := okAnd_eq_true.mp hup
  obtain rfl : v = 0 := of_decide_eq_true hv
  obtain ⟨v, hslot, hv⟩ := okAnd_eq_true.mp hslot
  obtain rfl : v = 2 := of_decide_eq_true hv
  obtain ⟨fs', g', hmake, hnew⟩ := (new_directory_iff unused_zeroFs hst ⟨[slash, 100], by decide⟩ rfl
    (by decide) (by decide) hup hslot hinode (lacks_of_nameAt hno) ⟨0, fun _ => 0⟩).mpr
    ⟨hclean, hreach, trivial⟩
  exact ⟨st, fs', g', hst, hmake, hnew⟩

/-- **A byte of a removed file** is an entry of the next directory. -/
theorem leftover_entry :
    ¬∀ (fs : FileSystem) (g' g1 g2 g : PathBuf) (ops : List FileOp) (st : FileSystem × PathBuf)
      (path : CString) (d s i : ℕ), Unused fs → run fileStep (makeRootDir fs, g') ops = .ok st →
      path.val.head? = some slash → path.val ≠ [slash] →
      (∀ q ∈ pieces (dirPath path.val), q.length < MAX_FILENAME_LEN) →
      findUpperDirPos st.1 path.val g1 = .ok ((d : ℤ), g2) → getAvlDirdata st.1 d = .ok (s : ℤ) →
      getAvlInode st.1 = i → (st.1.inode d).Lacks (lastPiece (dirPath path.val)) →
      ∃ fs' g', makeDir st.1 path.val g = .ok (fs', g') ∧ NewDirectory fs' path.val d i := by
  intro hall
  have hrun : okAnd (run fileStep (makeRootDir zeroFs, ⟨0, fun _ => 0⟩)
      [.openPath ⟨[slash, 97], by decide⟩, .write 1 (fun _ => 120) 1 68,
        .remove ⟨[slash, 97], by decide⟩]) (fun st =>
        okAnd (findUpperDirPos st.1 [slash, 100] ⟨0, fun _ => 0⟩) (fun r => r.1 = 0) &&
        okAnd (getAvlDirdata st.1 0) (· = 2) && decide (getAvlInode st.1 = 1) &&
        decide (∀ j < NR_DIRDATA, (st.1.inode 0).nameAt j ≠ [100, slash]) &&
        decide ((st.1.inode 1).Used 2)) = true := by
    decide +kernel
  obtain ⟨st, hst, hp⟩ := okAnd_eq_true.mp hrun
  simp only [Bool.and_eq_true, decide_eq_true_eq] at hp
  obtain ⟨⟨⟨⟨hup, hslot⟩, hinode⟩, hno⟩, hused⟩ := hp
  obtain ⟨⟨v, g1⟩, hup, hv⟩ := okAnd_eq_true.mp hup
  obtain rfl : v = 0 := of_decide_eq_true hv
  obtain ⟨v, hslot, hv⟩ := okAnd_eq_true.mp hslot
  obtain rfl : v = 2 := of_decide_eq_true hv
  have hlen : ∀ q ∈ pieces (dirPath [slash, 100]), q.length < MAX_FILENAME_LEN := by decide
  have hnew := hall zeroFs _ _ _ ⟨0, fun _ => 0⟩ _ st ⟨[slash, 100], by decide⟩ 0 2 1 unused_zeroFs hst rfl
    (by decide) hlen hup hslot hinode (lacks_of_nameAt hno)
  have hclean := ((dirsInUse_of_run unused_zeroFs hst).makeDir_iff rfl (by decide) (by decide) hlen hup
    hslot hinode (lacks_of_nameAt hno) _).mp hnew
  exact hclean.1 2 (by decide) (Nat.le_refl 2) hused

end OsLab
