import Mathlib.Data.Finset.Card
import Mathlib.Data.Finset.Range
import Mathlib.Logic.Function.Basic

/-!
# Counting the places where a function has a property

A table is a function `f : ι → β` on a finite set `S` of places. Reference counts, numbers of used
slots and the like are all `countOf P f S`: the number of places whose entry has the property `P`.
This file says how such a number changes when the table does.

* `countOf_update`: writing one entry moves the number by what the old and the new entry contribute.
* `countOf_update_add`: the case in which the new entry has the property and the old one has not.
* `countOf_eq_zero`, `countOf_pos`: what a count of zero means.
* `countOf_range_succ`: one more place.
-/

namespace OsLab.Lib

variable {ι β : Type} {S : Finset ι} {f g : ι → β} {i : ι} {v : β} (P : β → Prop) [DecidablePred P]

/-- The number of places in `S` whose entry has the property. -/
def countOf (f : ι → β) (S : Finset ι) : ℕ := (S.filter fun x => P (f x)).card

/-- No more are counted than there are. -/
theorem countOf_le (f : ι → β) (S : Finset ι) : countOf P f S ≤ S.card := Finset.card_filter_le _ _

/-- Functions that have the property at the same places have the same count. -/
theorem countOf_congr_iff (h : ∀ x ∈ S, (P (f x) ↔ P (g x))) : countOf P f S = countOf P g S := by
  unfold countOf
  rw [Finset.filter_congr h]

/-- The count depends on the values in the set only. -/
theorem countOf_congr (h : ∀ x ∈ S, f x = g x) : countOf P f S = countOf P g S := by
  apply countOf_congr_iff
  intro x hx
  rw [h x hx]

/-- None is counted if none has the property. -/
theorem countOf_eq_zero : countOf P f S = 0 ↔ ∀ x ∈ S, ¬P (f x) := by
  unfold countOf
  rw [Finset.card_eq_zero, Finset.filter_eq_empty_iff]

/-- One is counted if one has the property. -/
theorem countOf_pos : countOf P f S ≠ 0 ↔ ∃ x ∈ S, P (f x) := by
  rw [Ne, countOf_eq_zero]
  push Not
  rfl

/-- Of all places or of those that matter. -/
theorem countOf_subset {T : Finset ι} (hT : T ⊆ S) (h : ∀ x ∈ S, P (f x) → x ∈ T) :
    countOf P f T = countOf P f S := by
  unfold countOf
  congr 1
  ext x
  rw [Finset.mem_filter, Finset.mem_filter]
  constructor
  · rintro ⟨hx, hp⟩
    exact ⟨hT hx, hp⟩
  · rintro ⟨hx, hp⟩
    exact ⟨h x hx hp, hp⟩

/-- In a smaller set fewer are counted. -/
theorem countOf_mono {T : Finset ι} (hT : T ⊆ S) : countOf P f T ≤ countOf P f S :=
  Finset.card_le_card (Finset.filter_subset_filter _ hT)

/-- A place that matters and is left out. -/
theorem countOf_lt {T : Finset ι} (hT : T ⊆ S) {x : ι} (hx : x ∈ S) (hxT : x ∉ T) (hp : P (f x)) :
    countOf P f T < countOf P f S := by
  unfold countOf
  apply Finset.card_lt_card
  refine ⟨Finset.filter_subset_filter _ hT, ?_⟩
  intro hsub
  exact hxT (Finset.mem_of_mem_filter x (hsub (Finset.mem_filter.mpr ⟨hx, hp⟩)))

/-- One more place. -/
theorem countOf_range_succ {f : ℕ → β} {n : ℕ} :
    countOf P f (Finset.range (n + 1)) = countOf P f (Finset.range n) + if P (f n) then 1 else 0 := by
  unfold countOf
  rw [Finset.range_add_one, Finset.filter_insert]
  split_ifs
  · rw [Finset.card_insert_of_notMem (by simp)]
  · rfl

variable [DecidableEq ι]

/-- **Writing one entry** moves the number by what the old and the new entry contribute. -/
theorem countOf_update (hi : i ∈ S) :
    countOf P (Function.update f i v) S + (if P (f i) then 1 else 0) =
      countOf P f S + if P v then 1 else 0 := by
  -- both counts split into place `i` and the places that the write leaves alone
  have hsplit : ∀ g : ι → β, countOf P g S = (if P (g i) then 1 else 0) + countOf P g (S.erase i) := by
    intro g
    unfold countOf
    conv_lhs => rw [← Finset.insert_erase hi]
    rw [Finset.filter_insert]
    split_ifs with hp
    · rw [Finset.card_insert_of_notMem (by simp)]
      omega
    · omega
  have hrest : countOf P (Function.update f i v) (S.erase i) = countOf P f (S.erase i) := by
    apply countOf_congr
    intro x hx
    exact Function.update_of_ne (Finset.ne_of_mem_erase hx) _ _
  rw [hsplit (Function.update f i v), hsplit f, hrest, Function.update_self]
  omega

/-- A place that gets the property is counted once more. -/
theorem countOf_update_add (hi : i ∈ S) (hold : ¬P (f i)) (hnew : P v) :
    countOf P (Function.update f i v) S = countOf P f S + 1 := by
  have h := countOf_update P (f := f) (v := v) hi
  rwa [if_neg hold, if_pos hnew] at h

end OsLab.Lib
