import OsLab.Scheduler.Wakeup
import Mathlib.Data.Finset.Card
import Mathlib.Data.Finset.Range

/-!
# The process queues

The kernel's four lists as one family of intrusive queues (`Lib.Represents`) over the heads
`dummy1`, `dummy2`, `dummy3` and `dummysem`, and what the functions of `list.c` and `try_to_wakeup`
do to it. The walk of `try_to_wakeup` itself is in `Wakeup`.

Every lemma here says which `next` fields the operation leaves (`Kernel.relink`), what else it
changes, and which sequences the new fields hold. Callers never look at the walks again.
-/

namespace OsLab

open OsLab.Lib

/-- The kernel's process lists. -/
inductive QName
  | runnable
  | blocked
  | free
  | sem
  deriving DecidableEq, Repr

/-- The head node of a list. -/
def QName.head : QName → Node
  | runnable => runnableList
  | blocked => blockedList
  | free => freeList
  | sem => .dummysem

/-- The state of the processes on a list. -/
def QName.state : QName → PState
  | runnable => .runnable
  | blocked => .blocked
  | free => .dead
  | sem => .semBlocked

/-- The contents of all lists. -/
abbrev Queues : Type := QName → List Node

/-- The process table slots that processes use, `pcb[1..9]`. -/
def procs : Finset Node := (Finset.range 9).image fun i : ℕ => .pcb (i + 1)

/-- The processes are `pcb[1]` to `pcb[9]`. -/
theorem mem_procs {p : Node} : p ∈ procs ↔ ∃ i : ℤ, 1 ≤ i ∧ i ≤ 9 ∧ p = .pcb i := by
  rw [procs, Finset.mem_image]
  constructor
  · rintro ⟨i, hi, rfl⟩
    have := Finset.mem_range.mp hi
    exact ⟨i + 1, by omega, by omega, rfl⟩
  · rintro ⟨i, h1, h9, rfl⟩
    exact ⟨(i - 1).toNat, Finset.mem_range.mpr (by omega), congrArg Node.pcb (by omega)⟩

/-- The indices of the processes. -/
theorem pcb_mem_procs {i : ℤ} : Node.pcb i ∈ procs ↔ 1 ≤ i ∧ i ≤ 9 := by
  simp [mem_procs]

/-- There are nine of them. -/
theorem card_procs : procs.card = 9 := by decide

/-- The head of a list is no process. -/
theorem head_not_mem_procs (i : QName) : i.head ∉ procs := by
  cases i <;> simp [mem_procs, QName.head]

/-- Nor is the idle process. -/
theorem idle_not_mem_procs : Node.idle ∉ procs := by simp [mem_procs]

/-- A process is no head. -/
theorem ne_head_of_mem_procs {p : Node} (h : p ∈ procs) (i : QName) : p ≠ i.head :=
  fun he => head_not_mem_procs i (he ▸ h)

/-- The lists of the heap hold the queues `Q`, and only process table slots are in them. -/
structure Holds (k : Kernel) (Q : Queues) : Prop where
  rep : Represents k.next QName.head Q
  procs : ∀ i, ∀ p ∈ Q i, p ∈ procs

variable {k : Kernel} {Q : Queues}

namespace Holds

/-- A queue has at most nine members. -/
theorem length_le (h : Holds k Q) (i : QName) : (Q i).length ≤ 9 := by
  have hsub : (Q i).toFinset ⊆ OsLab.procs := fun p hp => h.procs i p (List.mem_toFinset.mp hp)
  have hcard := Finset.card_le_card hsub
  rwa [List.toFinset_card_of_nodup (h.rep.nodup i), card_procs] at hcard

/-- A walk is long enough for every queue. -/
theorem length_le_walk (h : Holds k Q) (i : QName) : (Q i).length ≤ WALK :=
  (h.length_le i).trans (by decide)

/-- The head of a list points to the first member. -/
theorem next_head (h : Holds k Q) (i : QName) : k.next i.head = (Q i).head? :=
  (h.rep.chain i).next_head

/-- The heap's picture only depends on the `next` fields. -/
theorem congr {k' : Kernel} (h : Holds k Q) (hn : k'.next = k.next) : Holds k' Q :=
  ⟨hn ▸ h.rep, h.procs⟩

end Holds

/-! ### `list.c` on the queues -/

/-- **`list_add`** appends a process that is in no list to one of them. -/
theorem listAdd_eq (h : Holds k Q) (i : QName) {d : Node} (hd : ∀ j, d ∉ Q j) (hp : d ∈ procs) :
    ∃ nx, listAdd i.head d k = .ok (k.relink nx) ∧
      Holds (k.relink nx) (Function.update Q i (Q i ++ [d])) := by
  obtain ⟨r, hwalk, hr, hrep⟩ :=
    h.rep.add i hd (ne_head_of_mem_procs hp) (h.length_le_walk i)
  refine ⟨Function.update (Function.update k.next d none) r (some d), ?_, ⟨hrep, ?_⟩⟩
  · simp only [listAdd, hwalk, hr, Kernel.setNext_eq_relink, Kernel.next_relink,
      Kernel.relink_relink]
  · intro j p hpj
    by_cases hj : j = i
    · subst hj
      rw [Function.update_self] at hpj
      rcases List.mem_append.mp hpj with hpj | hpj
      · exact h.procs j p hpj
      · exact List.mem_singleton.mp hpj ▸ hp
    · rw [Function.update_of_ne hj] at hpj
      exact h.procs j p hpj

/-- **`list_delete`** of a process on the list takes it out. -/
theorem listDelete_eq (h : Holds k Q) (i : QName) {d : Node} (hd : d ∈ Q i) :
    ∃ nx, listDelete i.head d k = .ok (k.relink nx) ∧
      Holds (k.relink nx) (Function.update Q i ((Q i).erase d)) := by
  obtain ⟨r, hwalk, hr, hrep⟩ := h.rep.delete i hd (h.length_le_walk i)
  refine ⟨Function.update k.next r (k.next d), ?_, ⟨hrep, ?_⟩⟩
  · simp only [listDelete, hwalk, hr, Kernel.setNext_eq_relink]
  · intro j p hpj
    by_cases hj : j = i
    · subst hj
      rw [Function.update_self] at hpj
      exact h.procs j p (List.mem_of_mem_erase hpj)
    · rw [Function.update_of_ne hj] at hpj
      exact h.procs j p hpj

/-- **`list_delete`** of a process that is not on the list fails its assertion. -/
theorem listDelete_abort (h : Holds k Q) (i : QName) {d : Node} (hd : d ∉ Q i) :
    listDelete i.head d k = .error .abort := by
  rw [listDelete_within]
  exact listDeleteWithin_abort (h.rep.chain i) hd (h.length_le_walk i)

/-- `list_delete` can only succeed on a process of the list. -/
theorem mem_of_listDelete (h : Holds k Q) (i : QName) {d : Node} {k' : Kernel}
    (hk : listDelete i.head d k = .ok k') : d ∈ Q i := by
  by_contra hd
  rw [listDelete_abort h i hd] at hk
  cases hk

/-- **`list_head`** returns the first process, and fails its assertion on an empty list. -/
theorem listHead_eq (h : Holds k Q) (i : QName) :
    listHead i.head k = match (Q i).head? with | none => .error .abort | some p => .ok p :=
  listHead_chain (h.rep.chain i)

/-! ### `try_to_wakeup` -/

/-- The queues after a tick: those whose sleep ends move behind the runnable processes. -/
def tickQueues (k : Kernel) (Q : Queues) : Queues
  | .runnable => Q .runnable ++ (Q .blocked).filter (expires k)
  | .blocked => (Q .blocked).filter fun p => !expires k p
  | i => Q i

/-- Where a process of a list was before the tick. -/
theorem mem_tickQueues {i : QName} {p : Node} (hp : p ∈ tickQueues k Q i) :
    p ∈ Q i ∧ (i = .blocked → expires k p = false) ∨
      i = .runnable ∧ p ∈ Q .blocked ∧ expires k p = true := by
  cases i with
  | runnable =>
    rcases List.mem_append.mp hp with hp | hp
    · exact .inl ⟨hp, by simp⟩
    · exact .inr ⟨rfl, (List.mem_filter.mp hp).1, (List.mem_filter.mp hp).2⟩
  | blocked =>
    exact .inl ⟨(List.mem_filter.mp hp).1, fun _ => by simpa using (List.mem_filter.mp hp).2⟩
  | free => exact .inl ⟨hp, by simp⟩
  | sem => exact .inl ⟨hp, by simp⟩

/-- A tick puts nothing but processes into the queues. -/
theorem procs_of_mem_tickQueues (h : Holds k Q) {i : QName} {p : Node}
    (hp : p ∈ tickQueues k Q i) : p ∈ procs := by
  rcases mem_tickQueues hp with ⟨hp, -⟩ | ⟨-, hp, -⟩
  · exact h.procs i p hp
  · exact h.procs .blocked p hp

/-- A process is an object. -/
theorem objects_of_procs {p : Node} (hp : p ∈ procs) : p ∈ Node.objects := by
  obtain ⟨i, hi, rfl⟩ := Finset.mem_image.mp hp
  have hlt := Finset.mem_range.mp hi
  exact List.mem_append_right _ (List.mem_map.mpr ⟨i + 1, List.mem_range.mpr (by omega), rfl⟩)

/-- **`try_to_wakeup`**: every process on `blocked_list` loses one tick of its sleep; those whose
sleep ends become runnable and move, in their order, behind the runnable processes. -/
theorem tryToWakeup_eq (h : Holds k Q) :
    ∃ nx, tryToWakeup k = .ok ((tickAll (Q .blocked) k).relink nx) ∧
      Holds ((tickAll (Q .blocked) k).relink nx) (tickQueues k Q) := by
  have hd : ∀ i j : QName, i ≠ j → (i.head :: Q i).Disjoint (j.head :: Q j) :=
    fun i j hij x hx hy => h.rep.ne_of_ne hij hx hy rfl
  have hbr := hd .blocked .runnable (by decide)
  have hlen := length_le_of_objects (h.rep.chain .blocked).nodup (h.rep.chain .runnable).nodup
    hbr fun p hp => objects_of_procs ((List.mem_append.mp hp).elim (h.procs _ p) (h.procs _ p))
  obtain ⟨nx, hrun, hb, hr, hf⟩ :=
    tryToWakeup_chains (h.rep.chain .blocked) (h.rep.chain .runnable) hbr hlen
  have hother : ∀ i : QName, i ≠ .blocked → i ≠ .runnable → Chain nx i.head (Q i) := fun i h1 h2 =>
    (h.rep.chain i).congr fun x hx => hf x (fun hx' => hd _ _ h1 hx hx') fun hx' => hd _ _ h2 hx hx'
  have hch : ∀ i : QName, Chain nx i.head (tickQueues k Q i) := by
    intro i
    cases i with
    | runnable => exact hr
    | blocked => exact hb
    | free => exact hother .free (by decide) (by decide)
    | sem => exact hother .sem (by decide) (by decide)
  refine ⟨nx, hrun, ⟨hch, fun i => (List.nodup_cons.mp (hch i).nodup).2, h.rep.head_inj, ?_, ?_⟩, ?_⟩
  · exact fun i j hi => head_not_mem_procs i (procs_of_mem_tickQueues h hi)
  · intro i j p hi hj
    rcases mem_tickQueues hi with ⟨hi, hei⟩ | ⟨rfl, hi, hei⟩ <;>
      rcases mem_tickQueues hj with ⟨hj, hej⟩ | ⟨rfl, hj, hej⟩
    · exact h.rep.disjoint i j p hi hj
    · obtain rfl := h.rep.disjoint i .blocked p hi hj
      exact absurd hej (by simp [hei rfl])
    · obtain rfl := h.rep.disjoint j .blocked p hj hi
      exact absurd hei (by simp [hej rfl])
    · rfl
  · exact fun i p hp => procs_of_mem_tickQueues h hp

end OsLab
