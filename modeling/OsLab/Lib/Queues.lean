import Mathlib.Data.List.Nodup
import Mathlib.Logic.Function.Basic

/-!
# A family of intrusive queues

Queues that are linked through one `next` field of their nodes: every queue has a head node of its
own, and all of them share the field. The nodes are an arbitrary type `α` and the queues are named
by an arbitrary type `ι`; nothing here knows what a node is.

* `Chain next p xs`: from `p` the field leads through `xs` to the end.
* `toLast` and `toPred`: the two pointer walks such queues are used with (to the last node; to the
  node in front of a given one), with a bound on their number of steps.
* `Represents next head Q`: the field holds the sequences `Q i`, all in one picture: every queue is
  a chain, no node is in two queues or twice in one, and no head is in a queue. Adding at the tail
  (`Represents.add`) and unlinking (`Represents.delete`) change one sequence and leave the others;
  the frame is part of the statement.
-/

set_option linter.unusedSectionVars false

namespace OsLab.Lib

variable {α ι : Type} {next : α → Option α} {p d : α} {xs : List α}

/-! ### Chains -/

/-- From `p` the field `next` leads through the nodes `xs`, in this order, and then ends. -/
def Chain (next : α → Option α) : α → List α → Prop
  | p, [] => next p = none
  | p, x :: xs => next p = some x ∧ Chain next x xs

/-- The empty chain ends at once. -/
@[simp] theorem chain_nil : Chain next p [] ↔ next p = none := Iff.rfl

/-- A chain goes on from its first element. -/
@[simp] theorem chain_cons {x : α} :
    Chain next p (x :: xs) ↔ next p = some x ∧ Chain next x xs := Iff.rfl

/-- The field determines the sequence. -/
theorem Chain.unique {ys : List α} (h : Chain next p xs) (h' : Chain next p ys) : xs = ys := by
  induction xs generalizing p ys with
  | nil =>
    cases ys with
    | nil => rfl
    | cons y ys => exact absurd (h.symm.trans h'.1) (by simp)
  | cons x xs ih =>
    cases ys with
    | nil => exact absurd (h.1.symm.trans h') (by simp)
    | cons y ys =>
      obtain rfl : x = y := Option.some.inj (h.1.symm.trans h'.1)
      rw [ih h.2 h'.2]

/-- A chain looks only at its own nodes. -/
theorem Chain.congr {next' : α → Option α} (h : Chain next p xs)
    (heq : ∀ x ∈ p :: xs, next' x = next x) : Chain next' p xs := by
  induction xs generalizing p with
  | nil => exact (heq p (by simp)).trans h
  | cons x xs ih =>
    exact ⟨(heq p (by simp)).trans h.1, ih h.2 fun y hy => heq y (List.mem_cons_of_mem _ hy)⟩

/-- The nodes that the field leads to from `p`, at most `n` of them. -/
def walk (next : α → Option α) : ℕ → α → List α
  | 0, _ => []
  | n + 1, p =>
    match next p with
    | none => []
    | some q => q :: walk next n q

/-- A walk with enough steps visits the chain. -/
theorem Chain.walk_eq (h : Chain next p xs) {n : ℕ} (hn : xs.length ≤ n) : walk next n p = xs := by
  induction xs generalizing p n with
  | nil =>
    cases n with
    | zero => rfl
    | succ n => rw [walk, chain_nil.mp h]
  | cons x xs ih =>
    cases n with
    | zero => simp at hn
    | succ n =>
      rw [walk, h.1]
      exact congrArg (x :: ·) (ih h.2 (by simpa using hn))

/-- The members of a part of a list, picked out of the whole. -/
theorem filter_mem_of_sublist [DecidableEq α] {l l' : List α} (hs : l'.Sublist l) (hnd : l.Nodup) :
    l.filter (· ∈ l') = l' := by
  induction hs with
  | slnil => rfl
  | cons a hs ih =>
    obtain ⟨ha, hnd⟩ := List.nodup_cons.mp hnd
    rw [List.filter_cons_of_neg (by simpa using fun hm => ha (hs.subset hm)), ih hnd]
  | cons_cons a hs ih =>
    obtain ⟨ha, hnd⟩ := List.nodup_cons.mp hnd
    rw [List.filter_cons_of_pos (by simp)]
    congr 1
    rw [← ih hnd]
    apply List.filter_congr
    intro x hx
    have hne : x ≠ a := by
      rintro rfl
      exact ha hx
    simp [hne, ih hnd]

/-- **A chain that ends has no node twice**: behind the second one it would go on for ever. -/
theorem Chain.nodup (h : Chain next p xs) : (p :: xs).Nodup := by
  induction xs generalizing p with
  | nil => simp
  | cons x xs ih =>
    refine List.nodup_cons.mpr ⟨fun hp => ?_, ih h.2⟩
    obtain ⟨as, bs, hsplit⟩ := List.append_of_mem hp
    have htail : ∀ ys q, Chain next q (ys ++ p :: bs) → Chain next p bs := by
      intro ys
      induction ys with
      | nil => exact fun q hq => hq.2
      | cons y ys ihy => exact fun q hq => ihy y hq.2
    have hp' : Chain next p bs := htail as p (hsplit ▸ h)
    have hlen := congrArg List.length (h.unique hp')
    rw [hsplit] at hlen
    simp at hlen
    omega

/-- The head points to the first element. -/
theorem Chain.next_head (h : Chain next p xs) : next p = xs.head? := by
  cases xs with
  | nil => exact h
  | cons x xs => exact h.1

/-- The last element points to nothing. -/
theorem Chain.next_last (h : Chain next p xs) :
    next ((p :: xs).getLast (List.cons_ne_nil _ _)) = none := by
  induction xs generalizing p with
  | nil => exact h
  | cons x xs ih => simpa using ih h.2

/-- In the middle of a chain the field leads to the node behind. -/
theorem Chain.next_of_append {ys : List α} {x : α} (h : Chain next p (xs ++ x :: ys)) :
    next x = ys.head? := by
  induction xs generalizing p with
  | nil => exact h.2.next_head
  | cons y xs ih => exact ih h.2

/-! ### The two walks -/

/-- Walk from `p` to the node whose `next` is empty, in at most `n` steps. -/
def toLast (next : α → Option α) : ℕ → α → Option α
  | 0, p => if (next p).isNone then some p else none
  | n + 1, p =>
    match next p with
    | none => some p
    | some q => toLast next n q

/-- On a chain the walk ends at the last node, given as many steps as the chain is long. -/
theorem Chain.toLast (h : Chain next p xs) {n : ℕ} (hn : xs.length ≤ n) :
    Lib.toLast next n p = some ((p :: xs).getLast (List.cons_ne_nil _ _)) := by
  induction xs generalizing p n with
  | nil =>
    have hp : next p = none := h
    cases n <;> simp [Lib.toLast, hp]
  | cons x xs ih =>
    cases n with
    | zero => simp at hn
    | succ n =>
      have hp : next p = some x := h.1
      simp only [Lib.toLast, hp]
      rw [ih h.2 (by simpa using hn)]
      simp

variable [DecidableEq α]

/-- Walk from `p` to the node in front of `d`, or to the last node when `d` does not follow, in at
most `n` steps. -/
def toPred (next : α → Option α) (d : α) : ℕ → α → Option α
  | 0, p => if (next p).isNone ∨ next p = some d then some p else none
  | n + 1, p =>
    match next p with
    | none => some p
    | some q => if q = d then some p else toPred next d n q

/-- On a chain without `d` the walk for `d` runs to the end. -/
theorem Chain.toPred_of_not_mem (h : Chain next p xs) (hd : d ∉ xs) {n : ℕ} (hn : xs.length ≤ n) :
    ∃ r, Lib.toPred next d n p = some r ∧ next r = none := by
  induction xs generalizing p n with
  | nil =>
    have hp : next p = none := h
    exact ⟨p, by cases n <;> simp [Lib.toPred, hp], hp⟩
  | cons x xs ih =>
    cases n with
    | zero => simp at hn
    | succ n =>
      have hp : next p = some x := h.1
      have hx : x ≠ d := fun he => hd (he ▸ List.mem_cons_self)
      simp only [Lib.toPred, hp, if_neg hx]
      exact ih h.2 (fun hm => hd (List.mem_cons_of_mem _ hm)) (by simpa using hn)

/-- On a chain with `d` the walk stops at a node in front of `d`; taking `d` out there leaves the
chain without `d`. -/
theorem Chain.toPred_of_mem (h : Chain next p xs) (hnd : (p :: xs).Nodup) (hd : d ∈ xs) {n : ℕ}
    (hn : xs.length ≤ n) :
    ∃ r ∈ p :: xs, Lib.toPred next d n p = some r ∧ next r = some d ∧
      Chain (Function.update next r (next d)) p (xs.erase d) := by
  induction xs generalizing p n with
  | nil => simp at hd
  | cons x xs ih =>
    cases n with
    | zero => simp at hn
    | succ n =>
      obtain ⟨hp, hc⟩ := h
      by_cases hx : x = d
      · subst hx
        refine ⟨p, by simp, by simp [Lib.toPred, hp], hp, ?_⟩
        -- the head of the chain is taken out: `p` gets the rest of the chain
        have hpx : p ∉ x :: xs := (List.nodup_cons.mp hnd).1
        have hc' : Chain (Function.update next p (next x)) x xs :=
          hc.congr fun y hy => Function.update_of_ne (fun he => hpx (by simpa [he] using hy)) _ _
        rw [List.erase_cons_head]
        cases xs with
        | nil =>
          have hx : next x = none := hc
          simp [hx]
        | cons y ys => exact ⟨by rw [Function.update_self]; exact hc.1, hc'.2⟩
      · have hd' : d ∈ xs := by
          rcases List.mem_cons.mp hd with rfl | hd
          · exact absurd rfl hx
          · exact hd
        obtain ⟨r, hr, hwalk, hrd, hch⟩ :=
          ih hc (List.nodup_cons.mp hnd).2 hd' (by simpa using hn)
        have hpr : p ≠ r := fun he => (List.nodup_cons.mp hnd).1 (he ▸ hr)
        refine ⟨r, List.mem_cons_of_mem _ hr, by simp [Lib.toPred, hp, hx, hwalk], hrd, ?_⟩
        rw [List.erase_cons_tail (by simpa using hx)]
        exact ⟨by rw [Function.update_of_ne hpr]; exact hp, hch⟩

/-- Linking a new node behind the last one of a chain. -/
theorem Chain.append (h : Chain next p xs) (hnd : (p :: xs).Nodup) (hd : d ∉ p :: xs) {r : α}
    (hr : r = (p :: xs).getLast (List.cons_ne_nil _ _)) :
    Chain (Function.update (Function.update next d none) r (some d)) p (xs ++ [d]) := by
  induction xs generalizing p with
  | nil =>
    obtain rfl : r = p := by simpa using hr
    have hdr : d ≠ r := fun he => hd (by simp [he])
    simp [Function.update_of_ne hdr]
  | cons x xs ih =>
    have hr' : r = (x :: xs).getLast (List.cons_ne_nil _ _) := by simpa using hr
    have hpr : p ≠ r := fun he =>
      (List.nodup_cons.mp hnd).1 (by rw [he, hr']; exact List.getLast_mem _)
    have hpd : p ≠ d := fun he => hd (by simp [he])
    refine ⟨?_, ih h.2 (List.nodup_cons.mp hnd).2 (fun hm => hd (List.mem_cons_of_mem _ hm)) hr'⟩
    rw [Function.update_of_ne hpr, Function.update_of_ne hpd]
    exact h.1

/-! ### The family -/

variable [DecidableEq ι] {head : ι → α} {Q : ι → List α}

/-- The field `next` holds the queues `Q`, the queue `i` behind its head node `head i`. -/
structure Represents (next : α → Option α) (head : ι → α) (Q : ι → List α) : Prop where
  /-- Every queue is a chain that ends. -/
  chain : ∀ i, Chain next (head i) (Q i)
  /-- No node occurs twice in a queue. -/
  nodup : ∀ i, (Q i).Nodup
  /-- The heads are different nodes. -/
  head_inj : Function.Injective head
  /-- No head is in a queue. -/
  head_not_mem : ∀ i j, head i ∉ Q j
  /-- No node is in two queues. -/
  disjoint : ∀ i j x, x ∈ Q i → x ∈ Q j → i = j

namespace Represents

/-- The field determines the queues. -/
theorem unique {Q' : ι → List α} (h : Represents next head Q) (h' : Represents next head Q') :
    Q = Q' :=
  funext fun i => (h.chain i).unique (h'.chain i)

/-- A queue and its head have no element twice. -/
theorem nodup_cons (h : Represents next head Q) (i : ι) : (head i :: Q i).Nodup :=
  List.nodup_cons.mpr ⟨h.head_not_mem i i, h.nodup i⟩

/-- A node of one queue's picture (its head included) is not in another's. -/
theorem ne_of_ne (h : Represents next head Q) {i j : ι} (hij : i ≠ j) {x y : α}
    (hx : x ∈ head i :: Q i) (hy : y ∈ head j :: Q j) : x ≠ y := by
  rintro rfl
  rcases List.mem_cons.mp hx with rfl | hx
  · rcases List.mem_cons.mp hy with he | hy
    · exact hij (h.head_inj he)
    · exact h.head_not_mem i j hy
  · rcases List.mem_cons.mp hy with rfl | hy
    · exact h.head_not_mem j i hx
    · exact hij (h.disjoint i j x hx hy)

/-- Changing the sequence of one queue and the field only at nodes of that queue's picture, or at a
node outside all pictures, keeps the picture. -/
theorem update {next' : α → Option α} (h : Represents next head Q) {i : ι} {xs : List α}
    (hch : Chain next' (head i) xs) (hnd : xs.Nodup)
    (hnew : ∀ x ∈ xs, x ∉ Q i → (∀ j, x ∉ Q j) ∧ ∀ j, x ≠ head j)
    (hframe : ∀ j ≠ i, ∀ x ∈ head j :: Q j, next' x = next x) :
    Represents next' head (Function.update Q i xs) where
  chain j := by
    by_cases hj : j = i
    · subst hj; simpa using hch
    · rw [Function.update_of_ne hj]; exact (h.chain j).congr (hframe j hj)
  nodup j := by
    by_cases hj : j = i
    · subst hj; simpa using hnd
    · rw [Function.update_of_ne hj]; exact h.nodup j
  head_inj := h.head_inj
  head_not_mem j k := by
    by_cases hk : k = i
    · subst hk
      rw [Function.update_self]
      intro hm
      by_cases hin : head j ∈ Q k
      · exact h.head_not_mem j k hin
      · exact (hnew _ hm hin).2 j rfl
    · rw [Function.update_of_ne hk]; exact h.head_not_mem j k
  disjoint j k x hj hk := by
    by_contra hjk
    -- at most one of the two queues is the changed one
    have key : ∀ a b, a ≠ b → x ∈ Function.update Q i xs a → x ∈ Function.update Q i xs b →
        b ≠ i → False := by
      intro a b hab ha hb hbi
      rw [Function.update_of_ne hbi] at hb
      by_cases hai : a = i
      · rw [hai, Function.update_self] at ha
        by_cases hin : x ∈ Q i
        · exact hbi (h.disjoint b i x hb hin)
        · exact (hnew x ha hin).1 b hb
      · rw [Function.update_of_ne hai] at ha
        exact hab (h.disjoint a b x ha hb)
    by_cases hki : k = i
    · exact key k j (Ne.symm hjk) hk hj (fun hji => hjk (hji.trans hki.symm))
    · exact key j k hjk hj hk hki

/-- **Adding at the tail**: linking a node that is in no queue behind the last node of queue `i`
appends it to that queue and changes no other. -/
theorem add (h : Represents next head Q) (i : ι) (hd : ∀ j, d ∉ Q j) (hh : ∀ j, d ≠ head j) {n : ℕ}
    (hn : (Q i).length ≤ n) :
    ∃ r, toLast next n (head i) = some r ∧ next r = none ∧
      Represents (Function.update (Function.update next d none) r (some d)) head
        (Function.update Q i (Q i ++ [d])) := by
  have hdi : d ∉ head i :: Q i := by simp [hd i, hh i]
  refine ⟨_, (h.chain i).toLast hn, (h.chain i).next_last, h.update ?_ ?_ ?_ ?_⟩
  · exact (h.chain i).append (h.nodup_cons i) hdi rfl
  · exact List.nodup_append.mpr ⟨h.nodup i, by simp, fun a ha b hb he => hd i (by
      rw [← List.mem_singleton.mp hb, ← he]; exact ha)⟩
  · intro x hx hxi
    obtain rfl : x = d := by simpa [hxi] using hx
    exact ⟨hd, hh⟩
  · intro j hj x hx
    have hxr : x ≠ (head i :: Q i).getLast (List.cons_ne_nil _ _) :=
      h.ne_of_ne hj hx (List.getLast_mem _)
    have hxd : x ≠ d := by
      rintro rfl
      rcases List.mem_cons.mp hx with he | hx
      · exact hh j he
      · exact hd j hx
    rw [Function.update_of_ne hxr, Function.update_of_ne hxd]

/-- **Unlinking**: taking the node `d` of queue `i` out of the chain removes it from that queue and
changes no other. The node's own field keeps its old value. -/
theorem delete (h : Represents next head Q) (i : ι) (hd : d ∈ Q i) {n : ℕ}
    (hn : (Q i).length ≤ n) :
    ∃ r, toPred next d n (head i) = some r ∧ next r = some d ∧
      Represents (Function.update next r (next d)) head (Function.update Q i ((Q i).erase d)) := by
  obtain ⟨r, hr, hwalk, hrd, hch⟩ := (h.chain i).toPred_of_mem (h.nodup_cons i) hd hn
  refine ⟨r, hwalk, hrd, h.update hch ((h.nodup i).erase d) ?_ ?_⟩
  · exact fun x hx hxi => absurd (List.mem_of_mem_erase hx) hxi
  · exact fun j hj x hx => Function.update_of_ne (h.ne_of_ne hj hx hr) _ _

end Represents

end OsLab.Lib
