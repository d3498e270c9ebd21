import OsLab.Files.Slots

/-!
# Paths

A path is cut after each slash (`pieces`): all pieces but the last end in a slash and have no
other, and a slash at the end of the path stays with the last piece. The functions of `fs.c` that
take paths apart are stated in these terms.

* `getTopDir_eq`: `getTopDir` cuts off the first piece, if it is not the last.
* `lastLevel_iff_not_mem`, `lastLevel_append`: `lastLevel` says whether there is one piece at most.
* `getLastLevelName_pieces`: `getLastLevelName` is the last piece.
-/

namespace OsLab

open OsLab.Lib

variable {p q r w : List UInt8} {qs : List (List UInt8)} {g : PathBuf}

/-- The pieces of a path. -/
def pieces : List UInt8 → List (List UInt8)
  | [] => []
  | c :: p =>
    if c = slash then [c] :: pieces p
    else
      match pieces p with
      | [] => [[c]]
      | q :: qs => (c :: q) :: qs

/-- The pieces make up the path. -/
@[simp] theorem flatten_pieces (p : List UInt8) : (pieces p).flatten = p := by
  induction p with
  | nil => rfl
  | cons c p ih =>
    rw [pieces]
    split_ifs with hc
    · simp [ih]
    · split
      · next h =>
        rw [h] at ih
        simp [← ih]
      · next q qs h =>
        rw [h] at ih
        simpa using ih

/-- Only the empty path has no pieces. -/
theorem pieces_eq_nil : pieces p = [] ↔ p = [] := by
  constructor
  · intro h
    rw [← flatten_pieces p, h]
    rfl
  · rintro rfl
    rfl

/-- No piece is empty. -/
theorem ne_nil_of_mem_pieces (h : q ∈ pieces p) : q ≠ [] := by
  induction p generalizing q with
  | nil => cases h
  | cons c p ih =>
    rw [pieces] at h
    split_ifs at h
    · rcases List.mem_cons.mp h with rfl | h
      · simp
      · exact ih h
    · split at h
      · rw [List.mem_singleton.mp h]
        simp
      · next q' qs' heq =>
        rcases List.mem_cons.mp h with rfl | h
        · simp
        · exact ih (by rw [heq]; exact List.mem_cons_of_mem _ h)

/-- A piece behind which another one begins. -/
def DirName (q : List UInt8) : Prop := ∃ w, slash ∉ w ∧ q = w ++ [slash]

/-- The name of a directory in front of a path is its first piece. -/
theorem pieces_dirName_append (hq : DirName q) : pieces (q ++ r) = q :: pieces r := by
  obtain ⟨w, hw, rfl⟩ := hq
  induction w with
  | nil => simp [pieces]
  | cons c w ih =>
    obtain ⟨hc, hw⟩ : slash ≠ c ∧ slash ∉ w := by simpa using hw
    rw [List.cons_append, List.cons_append, pieces, if_neg hc.symm, ih hw]

/-- A piece without a slash inside is a path of one piece. -/
theorem pieces_singleton (h : slash ∉ q.dropLast) (hne : q ≠ []) : pieces q = [q] := by
  induction q with
  | nil => exact absurd rfl hne
  | cons c q ih =>
    cases q with
    | nil => simp [pieces]
    | cons c' q =>
      obtain ⟨hc, hq⟩ : slash ≠ c ∧ slash ∉ (c' :: q).dropLast := by simpa using h
      rw [pieces, if_neg hc.symm, ih hq (by simp)]

/-- **The shape of a path**: one piece, or the name of a directory and the rest. -/
theorem pieces_cases (hne : p ≠ []) :
    (pieces p = [p] ∧ slash ∉ p.dropLast) ∨
      ∃ q r, DirName q ∧ r ≠ [] ∧ p = q ++ r ∧ pieces p = q :: pieces r := by
  by_cases h : slash ∈ p.dropLast
  · right
    obtain ⟨w, v, hsplit, hw⟩ := List.eq_append_cons_of_mem h
    have hp : p = (w ++ [slash]) ++ (v ++ [p.getLast hne]) := calc
      p = p.dropLast ++ [p.getLast hne] := (List.dropLast_append_getLast hne).symm
      _ = (w ++ [slash]) ++ (v ++ [p.getLast hne]) := by
        rw [hsplit]
        simp
    refine ⟨w ++ [slash], v ++ [p.getLast hne], ⟨w, hw, rfl⟩, by simp, hp, ?_⟩
    rw [← pieces_dirName_append ⟨w, hw, rfl⟩, ← hp]
  · exact .inl ⟨pieces_singleton h hne, h⟩

/-- A path of one piece. -/
theorem pieces_eq_singleton (h : pieces p = [q]) : p = q ∧ slash ∉ p.dropLast := by
  have hne : p ≠ [] := by
    rintro rfl
    simp [pieces] at h
  rcases pieces_cases hne with ⟨hp, hno⟩ | ⟨m, r, -, hr, -, hp⟩
  · rw [hp] at h
    exact ⟨(List.cons.inj h).1, hno⟩
  · rw [hp] at h
    exact absurd (pieces_eq_nil.mp (List.cons.inj h).2) hr

/-- A path of more than one. -/
theorem pieces_eq_cons (h : pieces p = q :: qs) (hqs : qs ≠ []) :
    ∃ r, DirName q ∧ r ≠ [] ∧ p = q ++ r ∧ pieces r = qs := by
  have hne : p ≠ [] := by
    rintro rfl
    cases h
  rcases pieces_cases hne with ⟨hp, -⟩ | ⟨m, r, hm, hr, rfl, hp⟩
  · rw [hp] at h
    exact absurd (List.cons.inj h).2.symm hqs
  · rw [hp] at h
    obtain ⟨rfl, rfl⟩ := List.cons.inj h
    exact ⟨r, hm, hr, rfl, rfl⟩

/-- All pieces but the last are names of directories. -/
theorem dirName_of_mem_dropLast (hne : p ≠ []) (hm : q ∈ (pieces p).dropLast) : DirName q := by
  induction hn : p.length using Nat.strong_induction_on generalizing p with
  | _ n ih =>
    rcases pieces_cases hne with ⟨hp, -⟩ | ⟨q', r, hq, hr, rfl, hp⟩
    · rw [hp] at hm
      simp at hm
    · have hrnil : pieces r ≠ [] := mt pieces_eq_nil.mp hr
      rw [hp, List.dropLast_cons_of_ne_nil hrnil] at hm
      rcases List.mem_cons.mp hm with rfl | hm
      · exact hq
      · have hpos : 0 < q'.length := by
          obtain ⟨w, -, rfl⟩ := hq
          simp
        refine ih r.length ?_ hr hm rfl
        rw [← hn, List.length_append]
        omega

/-- A piece has a slash at its end at most. -/
theorem slash_not_mem_dropLast (h : q ∈ pieces p) : slash ∉ q.dropLast := by
  induction p generalizing q with
  | nil => cases h
  | cons c p ih =>
    rw [pieces] at h
    split_ifs at h with hc
    · rcases List.mem_cons.mp h with rfl | h
      · simp
      · exact ih h
    · split at h
      · rw [List.mem_singleton.mp h]
        simp
      · next q' qs' heq =>
        rcases List.mem_cons.mp h with rfl | h
        · have hmem : q' ∈ pieces p := by
            rw [heq]
            simp
          rw [List.dropLast_cons_of_ne_nil (ne_nil_of_mem_pieces hmem), List.mem_cons, not_or]
          exact ⟨Ne.symm hc, ih hmem⟩
        · exact ih (by rw [heq]; exact List.mem_cons_of_mem _ h)

/-- Behind a slash a path can be cut. -/
theorem pieces_append (h : p.getLast? = some slash) : pieces (p ++ r) = pieces p ++ pieces r := by
  induction p with
  | nil => cases h
  | cons c p ih =>
    cases p with
    | nil =>
      obtain rfl : c = slash := by simpa using h
      simp [pieces]
    | cons c' p =>
      have hrest := ih (by simpa using h)
      rw [List.cons_append, pieces, hrest]
      conv_rhs => rw [pieces]
      split_ifs
      · rfl
      · cases hp : pieces (c' :: p) with
        | nil => exact absurd (pieces_eq_nil.mp hp) (by simp)
        | cons q qs => rfl

/-- A slash at the end stays with the last piece. -/
theorem pieces_append_slash (h : p.getLast? ≠ some slash) (hp : pieces p = qs ++ [q]) :
    pieces (p ++ [slash]) = qs ++ [q ++ [slash]] := by
  induction p generalizing qs q with
  | nil => simp [pieces] at hp
  | cons c p ih =>
    cases p with
    | nil =>
      have hc : c ≠ slash := by simpa using h
      have hone : pieces [c] = [[c]] := by simp [pieces, hc]
      obtain ⟨rfl, hq⟩ := List.append_eq_singleton_iff.mp (hp.symm.trans hone) |>.resolve_right (by simp)
      obtain rfl := (List.cons.inj hq).1
      simp [pieces, hc]
    | cons c' p =>
      have hlast : (c' :: p).getLast? ≠ some slash := by simpa using h
      obtain ⟨ms, m, hm⟩ : ∃ ms m, pieces (c' :: p) = ms ++ [m] := by
        rcases List.eq_nil_or_concat (pieces (c' :: p)) with hnil | ⟨ms, m, hm⟩
        · exact absurd (pieces_eq_nil.mp hnil) (by simp)
        · exact ⟨ms, m, by rw [hm, List.concat_eq_append]⟩
      have hrest := ih hlast hm
      rw [pieces, hm] at hp
      rw [List.cons_append, pieces, hrest]
      split_ifs at hp ⊢
      · have hp : ([c] :: ms) ++ [m] = qs ++ [q] := hp
        obtain ⟨rfl, hq⟩ := List.append_inj' hp rfl
        obtain rfl := (List.cons.inj hq).1
        rfl
      · cases ms with
        | nil =>
          obtain ⟨rfl, hq⟩ := List.append_eq_singleton_iff.mp hp.symm |>.resolve_right (by simp)
          obtain rfl := (List.cons.inj hq).1
          rfl
        | cons m' ms =>
          have hp : ((c :: m') :: ms) ++ [m] = qs ++ [q] := hp
          obtain ⟨rfl, hq⟩ := List.append_inj' hp rfl
          obtain rfl := (List.cons.inj hq).1
          rfl

/-! ### `lastLevel` -/

/-- On the last level there is no slash but at the end. -/
theorem lastLevel_iff_not_mem : lastLevel p = true ↔ slash ∉ p.dropLast := by
  rw [lastLevel, decide_eq_true_eq, List.count_eq_zero]

/-- **`lastLevel`**: there is no name of a directory in front of another piece. -/
theorem lastLevel_append (hq : DirName q) (hr : r ≠ []) : lastLevel (q ++ r) = false := by
  rw [← Bool.not_eq_true, lastLevel_iff_not_mem, not_not]
  obtain ⟨w, -, rfl⟩ := hq
  rw [List.dropLast_append_of_ne_nil hr]
  simp

/-! ### `getTopDir` -/

/-- The first level is copied behind what is there, slash included. -/
theorem getTopDirLoop_eq {i : ℕ} (hw : slash ∉ w) (hlen : i + w.length + 1 < MAX_FILENAME_LEN) :
    getTopDirLoop i g (w ++ slash :: r) =
      .ok ⟨i + w.length + 1, strcpy g.topDir i (w ++ [slash])⟩ := by
  have hsize : MAX_FILENAME_LEN = 28 := rfl
  rw [hsize] at hlen
  induction w generalizing i g with
  | nil =>
    rw [List.length_nil] at hlen
    rw [List.nil_append, getTopDirLoop, hsize, if_pos (by omega), if_pos rfl, if_pos (by omega)]
    rfl
  | cons c w ih =>
    obtain ⟨hc, hw⟩ : slash ≠ c ∧ slash ∉ w := by simpa using hw
    rw [List.length_cons] at hlen
    rw [List.cons_append, getTopDirLoop, hsize, if_pos (by omega)]
    dsimp only
    rw [if_neg hc.symm, ih hw (by omega), List.length_cons]
    congr 2
    omega

/-- **`getTopDir`** cuts off the first piece: the next calls read it from `top_dir` and step over
it. -/
theorem getTopDir_eq (hq : DirName q) (h0 : 0 ∉ q) (hlen : q.length < MAX_FILENAME_LEN) :
    ∃ g', getTopDir (q ++ r) g = .ok g' ∧ topDirName g' = .ok q ∧ advance (q ++ r) g' = .ok r := by
  obtain ⟨w, hw, rfl⟩ := hq
  rw [List.length_append, List.length_singleton] at hlen
  refine ⟨⟨w.length + 1, strcpy g.topDir 0 (w ++ [slash])⟩, ?_, ?_, ?_⟩
  · have h := getTopDirLoop_eq (i := 0) (g := g) (r := r) hw (by rwa [Nat.zero_add])
    rw [Nat.zero_add] at h
    rw [getTopDir, List.append_assoc]
    exact h
  · have hc : cstr (strcpy g.topDir 0 (w ++ [slash])) 0 MAX_FILENAME_LEN = some (w ++ [slash]) :=
      cstr_strcpy h0 (by simpa using hlen)
    rw [topDirName, hc]
  · have hdrop : ((w ++ [slash]) ++ r).drop (w.length + 1) = r := by
      rw [show w.length + 1 = (w ++ [slash]).length by simp, List.drop_left]
    rw [advance, if_pos (by simp), hdrop]

/-- A piece that is too long runs over the buffer. -/
theorem getTopDirLoop_error (hw : slash ∉ w) (hlen : MAX_FILENAME_LEN ≤ i + w.length + 1) :
    getTopDirLoop i g (w ++ slash :: r) = .error (.wild .name) := by
  induction w generalizing i g with
  | nil =>
    rw [List.length_nil, Nat.add_zero] at hlen
    rw [List.nil_append, getTopDirLoop]
    split_ifs with h1 h2 h3
    · omega
    · rfl
    · exact absurd rfl h2
    · rfl
  | cons c w ih =>
    obtain ⟨hc, hw⟩ : slash ≠ c ∧ slash ∉ w := by simpa using hw
    rw [List.length_cons] at hlen
    rw [List.cons_append, getTopDirLoop]
    by_cases h1 : i < MAX_FILENAME_LEN
    · rw [if_pos h1]
      dsimp only
      rw [if_neg hc.symm]
      exact ih hw (by omega)
    · exact if_neg h1

/-- The first piece of a path that is cut off fits into the buffer. -/
theorem length_lt_of_getTopDir (hq : DirName q) (h : getTopDir (q ++ r) g = .ok g') :
    q.length < MAX_FILENAME_LEN := by
  obtain ⟨w, hw, rfl⟩ := hq
  by_contra hlen
  rw [List.length_append, List.length_singleton] at hlen
  rw [getTopDir, List.append_assoc, List.singleton_append,
    getTopDirLoop_error hw (by omega)] at h
  cases h

/-! ### `getLastLevelName` -/

/-- The last slash is where the last piece begins. -/
theorem lastSlash_eq {n : ℕ} (hq : slash ∉ q.dropLast) (hne : q ≠ [])
    (hp : p = [] ∨ ∃ w, p = w ++ [slash]) (h1 : p.length ≤ n) (h2 : n ≤ (p ++ q).length) :
    lastSlash (p ++ q) n = p.length := by
  have hpos := List.length_pos_of_ne_nil hne
  rw [List.length_append] at h2
  induction n with
  | zero => rw [lastSlash, Nat.le_zero.mp h1]
  | succ n ih =>
    rw [lastSlash, List.length_append]
    rcases Nat.lt_or_ge n p.length with hlt | hge
    · -- the slash at the end of `p`
      obtain rfl | ⟨w, rfl⟩ := hp
      · simp at hlt
      · rw [List.length_append, List.length_singleton] at h1 hlt ⊢
        obtain rfl : n = w.length := by omega
        rw [if_pos ⟨by omega, by simp⟩]
    · have hidx : (p ++ q)[n]? = q[n - p.length]? := List.getElem?_append_right hge
      have hno : ¬(n ≠ p.length + q.length - 1 ∧ (p ++ q)[n]? = some slash) := by
        rintro ⟨hn, hs⟩
        rw [hidx] at hs
        apply hq
        have hlt : n - p.length < q.dropLast.length := by
          rw [List.length_dropLast]
          omega
        have hget : q.dropLast[n - p.length]? = some slash := by
          rw [List.getElem?_dropLast, if_pos (by rwa [List.length_dropLast] at hlt), hs]
        exact List.mem_of_getElem? hget
      rw [if_neg hno]
      exact ih hge (by omega)

/-- The last level of a path in two parts. -/
theorem getLastLevelName_eq (hq : slash ∉ q.dropLast) (hne : q ≠ [])
    (hp : p = [] ∨ ∃ w, p = w ++ [slash]) : getLastLevelName (p ++ q) = q := by
  rw [getLastLevelName, lastSlash_eq hq hne hp (by simp) (Nat.le_refl _), List.drop_left]

/-- **`getLastLevelName`** is the last piece. -/
theorem getLastLevelName_pieces (h : pieces p = qs ++ [q]) : getLastLevelName p = q := by
  have hmem : q ∈ pieces p := by
    rw [h]
    simp
  have hne : p ≠ [] := by
    rintro rfl
    simp [pieces] at h
  have hsplit : p = qs.flatten ++ q := by
    rw [← flatten_pieces p, h]
    simp
  have hend : qs.flatten = [] ∨ ∃ w, qs.flatten = w ++ [slash] := by
    rcases List.eq_nil_or_concat qs with rfl | ⟨qs, m, rfl⟩
    · exact .inl rfl
    · obtain ⟨w, -, rfl⟩ : DirName m := dirName_of_mem_dropLast hne (by rw [h]; simp)
      exact .inr ⟨qs.flatten ++ w, by simp⟩
  rw [hsplit]
  exact getLastLevelName_eq (slash_not_mem_dropLast hmem) (ne_nil_of_mem_pieces hmem) hend

/-- A path has a last level. -/
theorem getLastLevelName_ne_nil (h : p ≠ []) : getLastLevelName p ≠ [] := by
  rcases List.eq_nil_or_concat (pieces p) with hp | ⟨qs, q, hp⟩
  · exact absurd (pieces_eq_nil.mp hp) h
  · rw [List.concat_eq_append] at hp
    rw [getLastLevelName_pieces hp]
    exact ne_nil_of_mem_pieces (p := p) (by rw [hp]; simp)

/-- The last level has no NUL if the path has none. -/
theorem zero_not_mem_getLastLevelName (h : 0 ∉ p) : 0 ∉ getLastLevelName p := fun hm =>
  h (List.mem_of_mem_drop hm)

end OsLab
