import Mathlib.Data.List.Range
import Mathlib.Logic.Function.Basic

/-!
# Memory as a function

Memory, or an array, is a function on positions.

* `slice f i n` is the list of the `n` values from position `i` on; the lemmas say how a slice
  splits, grows by one value, and what it does not depend on.
* `pushes` stores a list below a stack pointer, so that it ends up back to front; `pushes_apply` says
  what every position holds afterwards.
* `overlay m w` has the values of the partial function `w` where `w` has any and those of `m`
  elsewhere. Of many laid over one another, at each point the last one counts that has a value there
  (`overlays_eq`).
-/

namespace OsLab.Lib

/-! ### Pieces -/

section Slice

variable {α : Type}

/-- The values `f i, …, f (i + n - 1)`. -/
def slice (f : ℕ → α) (i n : ℕ) : List α := (List.range n).map fun j => f (i + j)

variable {f g : ℕ → α} {i n : ℕ}

/-- A slice has the length asked for. -/
@[simp] theorem length_slice : (slice f i n).length = n := by simp [slice]

/-- Nothing is asked for. -/
@[simp] theorem slice_zero : slice f i 0 = [] := rfl

/-- A slice grows at its end. -/
theorem slice_succ : slice f i (n + 1) = slice f i n ++ [f (i + n)] := by
  simp [slice, List.range_succ]

/-- A slice begins with its first value. -/
theorem slice_cons : slice f i (n + 1) = f i :: slice f (i + 1) n := by
  simp only [slice, List.range_succ_eq_map, List.map_cons, List.map_map, Nat.add_zero]
  congr 1
  apply List.map_congr_left
  intro j _
  simp only [Function.comp_apply, Nat.succ_eq_add_one]
  congr 1
  omega

/-- A slice is cut in two. -/
theorem slice_append {m : ℕ} : slice f i (n + m) = slice f i n ++ slice f (i + n) m := by
  simp only [slice, List.range_add, List.map_append, List.map_map]
  congr 1
  apply List.map_congr_left
  intro j _
  simp [Nat.add_assoc]

/-- A slice depends on the values in its range only. -/
theorem slice_congr (h : ∀ j, i ≤ j → j < i + n → f j = g j) : slice f i n = slice g i n := by
  apply List.map_congr_left
  intro j hj
  have hlt := List.mem_range.mp hj
  exact h (i + j) (by omega) (by omega)

/-- The values of a slice by their index. -/
theorem getElem?_slice {j : ℕ} : (slice f i n)[j]? = if j < n then some (f (i + j)) else none := by
  unfold slice
  split_ifs with h
  · simp [h]
  · simp [not_lt.mp h]

/-- A value written behind a slice. -/
theorem slice_update_of_le {j : ℕ} {v : α} (h : i + n ≤ j) :
    slice (Function.update f j v) i n = slice f i n := by
  apply slice_congr
  intro m _ hm
  have hne : m ≠ j := by omega
  exact Function.update_of_ne hne v f

/-- A shorter slice from the same place is a part of it. -/
theorem slice_prefix {m : ℕ} (h : m ≤ n) : slice f i m <+: slice f i n := by
  obtain ⟨d, rfl⟩ := Nat.exists_eq_add_of_le h
  rw [slice_append]
  exact List.prefix_append _ _

end Slice

/-! ### A stack that grows downwards -/

section Stack

variable {β : Type} {xs : List β} {sp a : ℕ} {m : ℕ → β}

/-- The memory once `xs` has been pushed, its first element first, from stack pointer `sp`. -/
def pushes : List β → ℕ → (ℕ → β) → ℕ → β
  | [], _, m => m
  | x :: xs, sp, m => pushes xs (sp - 1) (Function.update m (sp - 1) x)

/-- **The memory after pushing**: the words lie below the old stack pointer, the last one lowest. -/
theorem pushes_apply (h : xs.length ≤ sp) :
    pushes xs sp m a = if a < sp then (xs[sp - 1 - a]?).getD (m a) else m a := by
  induction xs generalizing sp m with
  | nil => simp [pushes]
  | cons x xs ih =>
    simp only [List.length_cons] at h
    unfold pushes
    rw [ih (by omega)]
    rcases Nat.lt_trichotomy a (sp - 1) with ha | rfl | ha
    · have hidx : sp - 1 - a = sp - 1 - 1 - a + 1 := by omega
      rw [if_pos ha, if_pos (by omega), hidx, List.getElem?_cons_succ,
        Function.update_of_ne (Nat.ne_of_lt ha)]
    · have hlt : sp - 1 < sp := by omega
      simp [hlt]
    · rw [if_neg (by omega), if_neg (by omega), Function.update_of_ne (Nat.ne_of_gt ha)]

/-- What lies above is not touched. -/
theorem pushes_above (h : xs.length ≤ sp) (ha : sp ≤ a) : pushes xs sp m a = m a := by
  rw [pushes_apply h, if_neg (by omega)]

/-- Nor what lies further below. -/
theorem pushes_below (h : xs.length ≤ sp) (ha : a < sp - xs.length) : pushes xs sp m a = m a := by
  rw [pushes_apply h, if_pos (by omega), List.getElem?_eq_none (by omega), Option.getD_none]

end Stack

/-! ### Partial functions laid over a function -/

section Overlay

variable {α β : Type} {m : α → β} {w : α → Option β} {ws ws' : List (α → Option β)} {a : α} {b : β}

/-- `m` with the values of `w`. -/
def overlay (m : α → β) (w : α → Option β) (a : α) : β := (w a).getD (m a)

/-- `m` with the values of each in turn. -/
def overlays (m : α → β) : List (α → Option β) → α → β
  | [] => m
  | w :: ws => overlays (overlay m w) ws

/-- The value at `a` of the last one that has any. -/
def lastAt (a : α) : List (α → Option β) → Option β
  | [] => none
  | w :: ws => (lastAt a ws).or (w a)

/-- A partial function that agrees changes nothing. -/
theorem overlay_of_agree (h : ∀ b, w a = some b → b = m a) : overlay m w a = m a := by
  unfold overlay
  cases hw : w a with
  | none => rfl
  | some b => exact h b hw

/-- **The last value counts.** -/
theorem overlays_eq : overlays m ws a = (lastAt a ws).getD (m a) := by
  induction ws generalizing m with
  | nil => rfl
  | cons w ws ih =>
    rw [overlays, ih, lastAt]
    cases lastAt a ws <;> rfl

/-- Where none has a value, nothing changes. -/
theorem overlays_of_none (h : ∀ w ∈ ws, w a = none) : overlays m ws a = m a := by
  induction ws generalizing m with
  | nil => rfl
  | cons w ws ih =>
    rw [overlays, ih fun v hv => h v (List.mem_cons_of_mem _ hv), overlay, h w (by simp)]
    rfl

/-- Of two lists, the second counts where it has a value. -/
theorem lastAt_append : lastAt a (ws ++ ws') = (lastAt a ws').or (lastAt a ws) := by
  induction ws with
  | nil => simp [lastAt]
  | cons w ws ih => rw [List.cons_append, lastAt, ih, lastAt, Option.or_assoc]

/-- Partial functions with the same values at a point count the same there. -/
theorem lastAt_map_congr {γ : Type} {f g : γ → α → Option β} {xs : List γ}
    (h : ∀ x ∈ xs, f x a = g x a) : lastAt a (xs.map f) = lastAt a (xs.map g) := by
  induction xs with
  | nil => rfl
  | cons x xs ih =>
    rw [List.map_cons, List.map_cons, lastAt, lastAt, h x (by simp),
      ih fun y hy => h y (List.mem_cons_of_mem _ hy)]

/-- **A value stays** if all that comes later and has a value there ends on the same one. -/
theorem overlays_eq_iff (hw : w a = some b) (pre post : List (α → Option β)) :
    overlays m (pre ++ w :: post) a = b ↔ ∀ c, lastAt a post = some c → c = b := by
  rw [overlays_eq, lastAt_append, lastAt, hw]
  cases lastAt a post with
  | none => simp
  | some c => simp

end Overlay

end OsLab.Lib
