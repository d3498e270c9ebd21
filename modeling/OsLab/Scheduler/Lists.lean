import OsLab.Kernel.Boot

/-!
# The lists of `list.c` are sequences

The functions of `list.c` on any heap of PCBs and any list in it that ends, whatever else the `next`
fields hold. The lists of the kernel as it runs are in `Queues`.

* `listAddWithin` and `listDeleteWithin` are the two functions with any bound on the steps of their
  walks; `listAdd` and `listDelete` have the bound `WALK`, which no list of the kernel exceeds.
* `OthersStay`: lists that share no node with this one. A head is a node of its list.
* `listAddWithin_chain`, `listDeleteWithin_chain`, `listDeleteWithin_abort`, `listHead_chain`: each
  function on a list.
* **`lists_are_sequences`**: the four together.
-/

namespace OsLab

open OsLab.Lib

variable {k : Kernel} {head d : Node} {xs touched : List Node} {n : ℕ}

/-- `list_add`, if its walk ends within `n` steps. -/
def listAddWithin (n : ℕ) (head data : Node) (k : Kernel) : Except Stop Kernel :=
  match toLast k.next n head with
  | none => .error .hang
  | some p => .ok ((k.setNext data (k.next p)).setNext p (some data))

/-- `list_delete`, if its walk ends within `n` steps. -/
def listDeleteWithin (n : ℕ) (head data : Node) (k : Kernel) : Except Stop Kernel :=
  match toPred k.next data n head with
  | none => .error .hang
  | some p =>
    match k.next p with
    | none => .error .abort
    | some q => .ok (k.setNext p (k.next q))

/-- `list_add` with the bound of the model. -/
theorem listAdd_within (head d : Node) (k : Kernel) :
    listAdd head d k = listAddWithin WALK head d k := rfl

/-- `list_delete` with the bound of the model. -/
theorem listDelete_within (head d : Node) (k : Kernel) :
    listDelete head d k = listDeleteWithin WALK head d k := rfl

/-- Lists without a node of `touched` are the same under the fields `nx`. -/
def OthersStay (next nx : Node → Option Node) (touched : List Node) : Prop :=
  ∀ other ys, Chain next other ys → (other :: ys).Disjoint touched → Chain nx other ys

/-- Lists stay where no link outside the ones touched changes. -/
theorem othersStay_of_eq {next nx : Node → Option Node} (h : ∀ q, q ∉ touched → nx q = next q) :
    OthersStay next nx touched := fun _ _ hch hdis => hch.congr fun q hq => h q fun hm => hdis hq hm

/-- **`list_add`** on a list that ends: the node comes behind the last one, and only the fields of
the list and of the node change. -/
theorem listAddWithin_chain (h : Chain k.next head xs) (hd : d ∉ head :: xs) (hn : xs.length ≤ n) :
    ∃ nx, listAddWithin n head d k = .ok (k.relink nx) ∧ Chain nx head (xs ++ [d]) ∧
      ∀ q, q ∉ head :: xs → q ≠ d → nx q = k.next q := by
  have hlast := h.toLast hn
  refine ⟨Function.update (Function.update k.next d none)
    ((head :: xs).getLast (List.cons_ne_nil _ _)) (some d), ?_, h.append h.nodup hd rfl, ?_⟩
  · simp only [listAddWithin, hlast, h.next_last, Kernel.setNext_eq_relink, Kernel.next_relink,
      Kernel.relink_relink]
  · intro q hq hqd
    have hql : q ≠ (head :: xs).getLast (List.cons_ne_nil _ _) :=
      fun he => hq (he ▸ List.getLast_mem _)
    rw [Function.update_of_ne hql, Function.update_of_ne hqd]

/-- **`list_delete`** on a list that ends: the node is taken out, and only the fields of the list
change. The node keeps its own. -/
theorem listDeleteWithin_chain (h : Chain k.next head xs) (hd : d ∈ xs) (hn : xs.length ≤ n) :
    ∃ nx, listDeleteWithin n head d k = .ok (k.relink nx) ∧ Chain nx head (xs.erase d) ∧
      ∀ q, q ∉ head :: xs → nx q = k.next q := by
  obtain ⟨r, hr, hwalk, hrd, hch⟩ := h.toPred_of_mem h.nodup hd hn
  refine ⟨Function.update k.next r (k.next d), ?_, hch, fun q hq => ?_⟩
  · simp only [listDeleteWithin, hwalk, hrd, Kernel.setNext_eq_relink]
  · have hqr : q ≠ r := fun he => hq (he ▸ hr)
    exact Function.update_of_ne hqr _ _

/-- **`list_delete`** of a node that is not on the list fails its assertion. -/
theorem listDeleteWithin_abort (h : Chain k.next head xs) (hd : d ∉ xs) (hn : xs.length ≤ n) :
    listDeleteWithin n head d k = .error .abort := by
  obtain ⟨r, hwalk, hr⟩ := h.toPred_of_not_mem hd hn
  simp only [listDeleteWithin, hwalk, hr]

/-- **`list_head`** returns the first node, and fails its assertion on an empty list. -/
theorem listHead_chain (h : Chain k.next head xs) :
    listHead head k = match xs.head? with | none => .error .abort | some p => .ok p := by
  have hn := h.next_head
  cases hx : xs.head? with
  | none => simp only [listHead, hn, hx]
  | some p => simp only [listHead, hn, hx]

/-- **Intrusive lists behave as sequences.** On a list that ends, with any bound on the steps that is
not below its length: `list_add` appends a node; `list_delete` takes a node out and keeps the order,
or aborts if the node is not there; `list_head` returns the first node, or aborts if there is none.
No other list changes, and no field but `next`. -/
theorem lists_are_sequences (k : Kernel) (head d : Node) (xs : List Node)
    (h : Chain k.next head xs) :
    (∀ n, xs.length ≤ n →
      (d ∉ head :: xs → ∃ nx, listAddWithin n head d k = .ok (k.relink nx) ∧
        Chain nx head (xs ++ [d]) ∧ OthersStay k.next nx (d :: head :: xs)) ∧
      (listDeleteWithin n head d k = .error .abort ↔ d ∉ xs) ∧
      (d ∈ xs → ∃ nx, listDeleteWithin n head d k = .ok (k.relink nx) ∧
        Chain nx head (xs.filter (· ≠ d)) ∧ OthersStay k.next nx (head :: xs))) ∧
    (listHead head k = .error .abort ↔ xs = []) ∧
    ∀ p ys, xs = p :: ys → listHead head k = .ok p := by
  refine ⟨fun n hn => ⟨fun hd => ?_, ⟨fun habort hd => ?_, fun hd => ?_⟩, fun hd => ?_⟩, ?_, ?_⟩
  · obtain ⟨nx, hadd, hch, hframe⟩ := listAddWithin_chain h hd hn
    refine ⟨nx, hadd, hch, othersStay_of_eq fun q hq => ?_⟩
    rw [List.mem_cons, not_or] at hq
    exact hframe q hq.2 hq.1
  · obtain ⟨nx, hdel, -, -⟩ := listDeleteWithin_chain h hd hn
    rw [hdel] at habort
    cases habort
  · exact listDeleteWithin_abort h hd hn
  · obtain ⟨nx, hdel, hch, hframe⟩ := listDeleteWithin_chain h hd hn
    have herase : xs.erase d = xs.filter (· ≠ d) := by
      rw [(List.nodup_cons.mp h.nodup).2.erase_eq_filter]
      apply List.filter_congr
      intro x _
      rw [bne, beq_eq_decide, decide_not]
    exact ⟨nx, hdel, herase ▸ hch, othersStay_of_eq hframe⟩
  · rw [listHead_chain h]
    cases xs <;> simp
  · rintro p ys rfl
    rw [listHead_chain h]
    rfl

/-- Three runnable processes, and one that sleeps. -/
def threeReady : Kernel :=
  (Kernel.bss .blank).relink fun p => match p with
    | .dummy1 => some (.pcb 1)
    | .pcb 1 => some (.pcb 2)
    | .pcb 2 => some (.pcb 3)
    | .dummy2 => some (.pcb 4)
    | _ => none

/-- The second of three ready processes is taken off. -/
theorem threeReady_delete : ∃ nx, listDelete runnableList (.pcb 2) threeReady = .ok (threeReady.relink nx) ∧
    Chain nx runnableList [.pcb 1, .pcb 3] ∧ Chain nx blockedList [.pcb 4] := by
  have hready : Chain threeReady.next runnableList [.pcb 1, .pcb 2, .pcb 3] := ⟨rfl, rfl, rfl, rfl⟩
  have hblocked : Chain threeReady.next blockedList [.pcb 4] := ⟨rfl, rfl⟩
  obtain ⟨hwalks, -⟩ := lists_are_sequences threeReady runnableList (.pcb 2) _ hready
  obtain ⟨-, -, hdel⟩ := hwalks WALK (by decide)
  obtain ⟨nx, hrun, hch, hothers⟩ := hdel (by simp)
  exact ⟨nx, hrun, hch, hothers _ _ hblocked (by simp [List.Disjoint])⟩

end OsLab
