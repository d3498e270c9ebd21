import OsLab.Scheduler.Lists
import Mathlib.Data.List.Perm.Subperm

/-!
# One tick over the sleeping processes

`try_to_wakeup` unlinks nodes of the list it walks and links them into another one, through the same
`next` field. This file is about these two lists alone: whatever else the field holds, and whatever
the other lists look like.

* `listAdd_chain` and `listDelete_chain`: what the two functions of `list.c` do to one list, with the
  kernel's bound on their walks.
* `Walking`: the two lists in the middle of the loop. The nodes in front of its cursor have been kept
  and the ones behind it have not been looked at. `wakeupLoop_step` is one round: the next node is
  read before the current one is relinked, which `move` does. `wakeupLoop_chains` is the whole loop.
* `tryToWakeup_lists`: **one tick** for every process on `blocked_list`. Those whose counter becomes
  0 move behind the runnable processes in their order, and the others stay.

The number of nodes is bounded by the number of PCBs (`Node.objects`), which is what the kernel's
walks rely on.
-/

namespace OsLab

open OsLab.Lib

variable {k : Kernel} {bs rs rest kept : List Node} {p : Node}

/-! ### The tick -/

/-- One tick for a sleeping process. -/
def tick (c : PCB) : PCB :=
  { c with
    sleepTime := i32 (c.sleepTime - 1)
    state := if i32 (c.sleepTime - 1) = 0 then .runnable else c.state }

/-- The tick ends the process's sleep. -/
def expires (k : Kernel) (p : Node) : Bool := i32 ((k.pcb p).sleepTime - 1) = 0

/-- The kernel after a tick for each process of `xs`, its lists aside. -/
def tickAll (xs : List Node) (k : Kernel) : Kernel :=
  { k with pcb := fun p => if p ∈ xs then tick (k.pcb p) else k.pcb p }

/-- No sleeper, no change. -/
@[simp] theorem tickAll_nil (k : Kernel) : tickAll [] k = k := by simp [tickAll]

/-- The part of a tick that the loop does first. -/
abbrev countDown (p : Node) (k : Kernel) : Kernel :=
  k.setPcb p fun c => { c with sleepTime := i32 (c.sleepTime - 1) }

/-- Whether a sleep ends depends on the sleep counters only. -/
theorem expires_congr {k k' : Kernel} {xs : List Node}
    (h : ∀ p ∈ xs, (k'.pcb p).sleepTime = (k.pcb p).sleepTime) (p : Node) (hp : p ∈ xs) :
    expires k' p = expires k p := by
  simp only [expires, h p hp]

/-! ### `list.c` on one list -/

/-- The PCBs of the kernel: the list heads, `pcb[]` and `idle`. -/
def Node.objects : List Node :=
  [.dummy1, .dummy2, .dummy3, .dummysem, .idle] ++ (List.range 10).map fun i : ℕ => .pcb i

/-- **`list_add`** on a list that ends: the node comes behind the last one, and only the fields of
the list and of the node change. -/
theorem listAdd_chain {head d : Node} {xs : List Node} (h : Chain k.next head xs)
    (hd : d ∉ head :: xs) (hn : xs.length ≤ WALK) :
    ∃ nx, listAdd head d k = .ok (k.relink nx) ∧ Chain nx head (xs ++ [d]) ∧
      ∀ q, q ∉ head :: xs → q ≠ d → nx q = k.next q := by
  rw [listAdd_within]
  exact listAddWithin_chain h hd hn

/-- **`list_delete`** on a list that ends: the node is taken out, and only the fields of the list
change. The node keeps its own. -/
theorem listDelete_chain {head d : Node} {xs : List Node} (h : Chain k.next head xs) (hd : d ∈ xs)
    (hn : xs.length ≤ WALK) :
    ∃ nx, listDelete head d k = .ok (k.relink nx) ∧ Chain nx head (xs.erase d) ∧
      ∀ q, q ∉ head :: xs → nx q = k.next q := by
  rw [listDelete_within]
  exact listDeleteWithin_chain h hd hn

/-! ### The loop -/

/-- The two lists when the loop is at the first process of `rest`; those of `kept` have been counted
down and stay. -/
structure Walking (next : Node → Option Node) (kept rest rs : List Node) : Prop where
  blocked : Chain next blockedList (kept ++ rest)
  runnable : Chain next runnableList rs
  apart : (blockedList :: (kept ++ rest)).Disjoint (runnableList :: rs)
  le : (kept ++ rest).length + rs.length ≤ WALK

namespace Walking

/-- The process sleeps on: the cursor moves behind it. -/
theorem keep {next : Node → Option Node} (h : Walking next kept (p :: rest) rs) :
    Walking next (kept ++ [p]) rest rs := by
  have happ : kept ++ [p] ++ rest = kept ++ p :: rest := by simp
  exact ⟨happ ▸ h.blocked, h.runnable, happ ▸ h.apart, happ ▸ h.le⟩

/-- It is on the list once, and is not its head. -/
theorem not_mem {next : Node → Option Node} (h : Walking next kept (p :: rest) rs) :
    p ∉ blockedList :: (kept ++ rest) := by
  have hperm : (blockedList :: (kept ++ p :: rest)).Perm (p :: blockedList :: (kept ++ rest)) :=
    (List.perm_middle.cons _).trans (.swap _ _ _)
  exact (List.nodup_cons.mp (hperm.nodup_iff.mp h.blocked.nodup)).1

/-- A node on a list is not behind itself. -/
theorem not_mem_rest {next : Node → Option Node} (h : Walking next kept (p :: rest) rs) : p ∉ rest :=
  fun hm => h.not_mem (List.mem_cons_of_mem _ (List.mem_append_right _ hm))

/-- **The process wakes up**: it leaves the blocked processes and joins the runnable ones. -/
theorem move (h : Walking k.next kept (p :: rest) rs) :
    ∃ nx1 nx, listDelete blockedList p k = .ok (k.relink nx1) ∧
      listAdd runnableList p ((k.relink nx1).setState p .runnable) =
        .ok ((k.setState p .runnable).relink nx) ∧
      Walking nx kept rest (rs ++ [p]) ∧
      ∀ q, q ∉ blockedList :: (kept ++ p :: rest) → q ∉ runnableList :: rs → nx q = k.next q := by
  have hle := h.le
  rw [List.length_append, List.length_cons] at hle
  have hpb := h.not_mem
  have hpr : p ∉ runnableList :: rs := fun hm => h.apart (by simp) hm
  have hkept : p ∉ kept := fun hm => hpb (List.mem_cons_of_mem _ (List.mem_append_left _ hm))
  have hsub : ∀ q ∈ blockedList :: (kept ++ rest), q ∈ blockedList :: (kept ++ p :: rest) := by
    intro q hq
    simp only [List.mem_cons, List.mem_append] at hq ⊢
    tauto
  -- the first list, and the second one untouched by it
  obtain ⟨nx1, hdel, hb1, hf1⟩ := listDelete_chain (d := p) h.blocked (by simp)
    (by rw [List.length_append, List.length_cons]; omega)
  rw [List.erase_append_right _ hkept, List.erase_cons_head] at hb1
  have hr1 : Chain nx1 runnableList rs :=
    h.runnable.congr fun q hq => hf1 q fun hm => h.apart hm hq
  have hnext : ((k.relink nx1).setState p .runnable).next = nx1 := by
    funext q
    by_cases hq : q = p <;> simp [Kernel.next, hq]
  -- the second list, and the first one untouched by it
  obtain ⟨nx, hadd, hr2, hf2⟩ := listAdd_chain (k := (k.relink nx1).setState p .runnable)
    (by rw [hnext]; exact hr1) hpr (by omega)
  have hb2 : Chain nx blockedList (kept ++ rest) := by
    apply hb1.congr
    intro q hq
    rw [hf2 q (fun hm => h.apart (hsub q hq) hm) (fun he => hpb (he ▸ hq)), hnext]
  refine ⟨nx1, nx, hdel, ?_, ⟨hb2, hr2, ?_, ?_⟩, ?_⟩
  · rw [hadd]
    refine congrArg Except.ok (k.pcb_ext fun q => ?_)
    by_cases hq : q = p <;> simp [hq, Kernel.relink_pcb]
  · intro q hq hq'
    rw [← List.cons_append, List.mem_append, List.mem_singleton] at hq'
    rcases hq' with hq' | rfl
    · exact h.apart (hsub q hq) hq'
    · exact hpb hq
  · rw [List.length_append, List.length_append, List.length_singleton]
    omega
  · intro q hqb hqr
    rw [hf2 q hqr fun he => hqb (by simp [he]), hnext, hf1 q hqb]

end Walking

/-- A tick for one process and then for others. -/
theorem tickAll_cons (hp : p ∉ rest) (nx nx' : Node → Option Node) :
    (tickAll rest ((tickAll [p] k).relink nx)).relink nx' = (tickAll (p :: rest) k).relink nx' := by
  refine k.pcb_ext fun q => ?_
  by_cases hq : q = p
  · subst hq
    simp [tickAll, hp, Kernel.relink_pcb]
  · by_cases hqr : q ∈ rest <;> simp [tickAll, hq, hqr, tick, Kernel.relink_pcb]

/-- **One round of the loop**: the process has its tick, and stays or moves. -/
theorem wakeupLoop_step (h : Walking k.next kept (p :: rest) rs) (n : ℕ) :
    ∃ nx, wakeupLoop (n + 1) (some p) k = wakeupLoop n rest.head? ((tickAll [p] k).relink nx) ∧
      Walking nx (if expires k p then kept else kept ++ [p]) rest
        (if expires k p then rs ++ [p] else rs) ∧
      ∀ q, q ∉ blockedList :: (kept ++ p :: rest) → q ∉ runnableList :: rs → nx q = k.next q := by
  have hcount : (countDown p k).next = k.next := by
    funext q
    by_cases hq : q = p <;> simp [Kernel.next, hq]
  have hhead : k.next p = rest.head? := h.blocked.next_of_append
  by_cases hz : i32 ((k.pcb p).sleepTime - 1) = 0
  · have hexp : expires k p = true := decide_eq_true hz
    obtain ⟨nx1, nx, hdel, hadd, hw, hf⟩ := (hcount.symm ▸ h : Walking (countDown p k).next _ _ _).move
    have hker : ((countDown p k).setState p .runnable).relink nx = (tickAll [p] k).relink nx := by
      refine k.pcb_ext fun q => ?_
      by_cases hq : q = p <;> simp [tickAll, tick, hq, hz]
    refine ⟨nx, ?_, by simpa [hexp] using hw, by rwa [hcount] at hf⟩
    rw [← hker]
    simp [wakeupLoop, hcount, hhead, hz, hdel, hadd]
  · have hexp : expires k p = false := decide_eq_false hz
    have hker : countDown p k = (tickAll [p] k).relink k.next := by
      refine k.pcb_ext fun q => ?_
      by_cases hq : q = p <;> simp [tickAll, tick, hq, hz, Kernel.next]
    refine ⟨k.next, ?_, by simpa [hexp] using h.keep, fun q _ _ => rfl⟩
    rw [← hker]
    simp [wakeupLoop, hcount, hhead, hz]

/-- **The loop of `try_to_wakeup`** over the rest of the list: the induction is on the processes
still to be visited, and `Walking` is the invariant. -/
theorem wakeupLoop_chains (rest kept : List Node) {n : ℕ} (h : Walking k.next kept rest rs)
    (hn : rest.length ≤ n) :
    ∃ nx, wakeupLoop n rest.head? k = .ok ((tickAll rest k).relink nx) ∧
      Chain nx blockedList (kept ++ rest.filter fun p => !expires k p) ∧
      Chain nx runnableList (rs ++ rest.filter (expires k)) ∧
      ∀ q, q ∉ blockedList :: (kept ++ rest) → q ∉ runnableList :: rs → nx q = k.next q := by
  induction rest generalizing k rs kept n with
  | nil =>
    refine ⟨k.next, by cases n <;> simp [wakeupLoop], by simpa using h.blocked,
      by simpa using h.runnable, ?_⟩
    exact fun q _ _ => rfl
  | cons p rest ih =>
    obtain ⟨n, rfl⟩ : ∃ n', n = n' + 1 := ⟨n - 1, by simp only [List.length_cons] at hn; omega⟩
    obtain ⟨nx, hstep, hw, hf⟩ := wakeupLoop_step h n
    set k1 := (tickAll [p] k).relink nx with hk1
    -- the others sleep as long as before
    have hp := h.not_mem_rest
    have hsleep : ∀ q ∈ rest, (k1.pcb q).sleepTime = (k.pcb q).sleepTime := by
      intro q hq
      have hqp : q ≠ p := fun he => hp (he ▸ hq)
      simp [hk1, tickAll, hqp, Kernel.relink_pcb]
    obtain ⟨nx', hloop, hb, hr, hf'⟩ := ih (k := k1) _ hw (by simpa using hn)
    rw [List.filter_congr fun q hq => by rw [expires_congr hsleep q hq]] at hb
    rw [List.filter_congr fun q hq => expires_congr hsleep q hq] at hr
    refine ⟨nx', ?_, ?_, ?_, ?_⟩
    · rw [List.head?_cons, hstep, hloop, hk1, tickAll_cons hp]
    · cases hexp : expires k p <;> simpa [hexp] using hb
    · cases hexp : expires k p <;> simpa [hexp] using hr
    · intro q hqb hqr
      have hqp : q ≠ p := fun he => hqb (by simp [he])
      simp only [List.mem_cons, List.mem_append, not_or] at hqb hqr
      have hqb' : q ∉ blockedList :: ((if expires k p then kept else kept ++ [p]) ++ rest) := by
        split_ifs <;> simp [hqb]
      have hqr' : q ∉ runnableList :: (if expires k p then rs ++ [p] else rs) := by
        split_ifs <;> simp [hqr, hqp]
      rw [hf' q hqb' hqr', hk1, Kernel.next_relink]
      exact hf q (by simp [hqb]) (by simp [hqr])

/-- The same from the head of the list, which is what `try_to_wakeup` runs. -/
theorem tryToWakeup_chains (hb : Chain k.next blockedList bs) (hr : Chain k.next runnableList rs)
    (hd : (blockedList :: bs).Disjoint (runnableList :: rs)) (hlen : bs.length + rs.length ≤ WALK) :
    ∃ nx, tryToWakeup k = .ok ((tickAll bs k).relink nx) ∧
      Chain nx blockedList (bs.filter fun p => !expires k p) ∧
      Chain nx runnableList (rs ++ bs.filter (expires k)) ∧
      ∀ q, q ∉ blockedList :: bs → q ∉ runnableList :: rs → nx q = k.next q := by
  obtain ⟨nx, hrun, h⟩ := wakeupLoop_chains (n := WALK) bs [] ⟨hb, hr, hd, by simpa using hlen⟩
    (by omega)
  refine ⟨nx, ?_, h⟩
  rw [tryToWakeup, hb.next_head]
  exact hrun

/-- Two lists without a common node hold no more nodes than there are PCBs. -/
theorem length_le_of_objects (hb : (blockedList :: bs).Nodup) (hr : (runnableList :: rs).Nodup)
    (hd : (blockedList :: bs).Disjoint (runnableList :: rs))
    (hobj : ∀ p ∈ bs ++ rs, p ∈ Node.objects) : bs.length + rs.length ≤ WALK := by
  have hnd : (blockedList :: bs ++ runnableList :: rs).Nodup :=
    List.nodup_append.mpr ⟨hb, hr, fun a ha b hb' he => hd ha (he ▸ hb')⟩
  have hsub : blockedList :: bs ++ runnableList :: rs ⊆ Node.objects := by
    intro p hp
    simp only [List.cons_append, List.mem_cons, List.mem_append] at hp
    rcases hp with rfl | hp | rfl | hp
    · decide
    · exact hobj p (List.mem_append_left _ hp)
    · decide
    · exact hobj p (List.mem_append_right _ hp)
  have hle := (hnd.subperm hsub).length_le
  have h15 : Node.objects.length = 15 := rfl
  have h16 : WALK = 16 := rfl
  simp only [List.length_append, List.length_cons] at hle
  omega

/-- **One tick over the sleepers**: `try_to_wakeup` ends; every process on `blocked_list` is counted
down once, modulo 2³²; those whose counter is 0 then become runnable and move, in their order,
behind the processes on `runnable_list`; the others stay in their order. Nothing else changes. -/
theorem tryToWakeup_lists (hb : Chain k.next blockedList bs) (hr : Chain k.next runnableList rs)
    (hd : (blockedList :: bs).Disjoint (runnableList :: rs))
    (hobj : ∀ p ∈ bs ++ rs, p ∈ Node.objects) :
    ∃ k', tryToWakeup k = .ok k' ∧
      (∀ p ∈ bs, (k'.pcb p).sleepTime = i32 ((k.pcb p).sleepTime - 1)) ∧
      Chain k'.next blockedList (bs.filter fun p => (k'.pcb p).sleepTime ≠ 0) ∧
      Chain k'.next runnableList (rs ++ bs.filter fun p => (k'.pcb p).sleepTime = 0) ∧
      (∀ p ∈ bs, k'.pcb p =
        { k.pcb p with
          sleepTime := (k'.pcb p).sleepTime
          state := if (k'.pcb p).sleepTime = 0 then .runnable else (k.pcb p).state
          next := k'.next p }) ∧
      (∀ p, p ∉ bs → k'.pcb p = { k.pcb p with next := k'.next p }) ∧
      (∀ p, p ∉ blockedList :: bs → p ∉ runnableList :: rs → k'.next p = k.next p) ∧
      (∀ head xs, Chain k.next head xs → (∀ p ∈ head :: xs, p ∉ blockedList :: bs) →
        (∀ p ∈ head :: xs, p ∉ runnableList :: rs) → Chain k'.next head xs) ∧
      k' = { k with pcb := k'.pcb } := by
  obtain ⟨nx, hrun, hb', hr', hf⟩ :=
    tryToWakeup_chains hb hr hd (length_le_of_objects hb.nodup hr.nodup hd hobj)
  have hpcb : ∀ p, ((tickAll bs k).relink nx).pcb p =
      { if p ∈ bs then tick (k.pcb p) else k.pcb p with next := nx p } := fun p => rfl
  have hsleep : ∀ p ∈ bs, (((tickAll bs k).relink nx).pcb p).sleepTime =
      i32 ((k.pcb p).sleepTime - 1) := by
    intro p hp
    rw [hpcb, if_pos hp]
    rfl
  have hzero : ∀ p ∈ bs, decide ((((tickAll bs k).relink nx).pcb p).sleepTime = 0) = expires k p :=
    fun p hp => by rw [hsleep p hp]; rfl
  refine ⟨_, hrun, hsleep, ?_, ?_, ?_, ?_, hf, ?_, rfl⟩
  · rw [Kernel.next_relink]
    rw [List.filter_congr fun p hp => by rw [decide_not, hzero p hp]]
    exact hb'
  · rw [Kernel.next_relink]
    rw [List.filter_congr hzero]
    exact hr'
  · intro p hp
    rw [hsleep p hp, hpcb, if_pos hp]
    rfl
  · intro p hp
    rw [hpcb, if_neg hp, Kernel.next_relink]
  · exact fun head xs hch h1 h2 => hch.congr fun q hq => hf q (h1 q hq) (h2 q hq)

/-- Three sleepers, the first and the third in their last tick, and one process that is ready. -/
def threeSleepers : Kernel :=
  { Kernel.bss Image.blank with
    pcb := fun p => match p with
      | .dummy1 => { PCB.zero with next := some (.pcb 4) }
      | .dummy2 => { PCB.zero with next := some (.pcb 1) }
      | .pcb 1 => { PCB.zero with state := .blocked, sleepTime := 1, next := some (.pcb 2) }
      | .pcb 2 => { PCB.zero with state := .blocked, sleepTime := 0, next := some (.pcb 3) }
      | .pcb 3 => { PCB.zero with state := .blocked, sleepTime := 1 }
      | _ => PCB.zero }

/-- One of three sleepers sleeps on. -/
theorem threeSleepers_wake : ∃ k', tryToWakeup threeSleepers = .ok k' ∧
    (k'.pcb (.pcb 2)).sleepTime = -1 ∧ Chain k'.next blockedList [.pcb 2] ∧
    Chain k'.next runnableList [.pcb 4, .pcb 1, .pcb 3] := by
  have hblocked : Chain threeSleepers.next blockedList [.pcb 1, .pcb 2, .pcb 3] :=
    ⟨rfl, rfl, rfl, rfl⟩
  have hready : Chain threeSleepers.next runnableList [.pcb 4] := ⟨rfl, rfl⟩
  obtain ⟨k', hrun, hsleep, hb, hr, -⟩ :=
    tryToWakeup_lists hblocked hready (by simp [List.Disjoint]) (by decide)
  have h1 : (k'.pcb (.pcb 1)).sleepTime = 0 := hsleep _ (by simp)
  have h2 : (k'.pcb (.pcb 2)).sleepTime = -1 := hsleep _ (by simp)
  have h3 : (k'.pcb (.pcb 3)).sleepTime = 0 := hsleep _ (by simp)
  exact ⟨k', hrun, h2, by simpa [h1, h2, h3] using hb, by simpa [h1, h2, h3] using hr⟩

end OsLab
