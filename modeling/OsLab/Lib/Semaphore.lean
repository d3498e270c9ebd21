import Mathlib.Data.List.Nodup
import Mathlib.Algebra.Order.Group.Int

/-!
# A counting semaphore

What a counting semaphore is, with no kernel around it: a value and the queue of those who wait. The
waiters are an arbitrary type. A `wait` takes one from the value and queues the caller if nothing
was left; a `post` gives one back and lets the first of the queue go.

* `Counter.Balanced`: the queue is as long as the value is negative; both operations keep it.
* `Counter.fifo`: whoever had to wait has been let go or is in the queue, in the order of the calls.
* `Counter.Held`: where only those post who were let in, at most as many are inside as the semaphore
  started with, nobody is inside twice or inside and in the queue, and nobody waits for a place that
  is free.
-/

namespace OsLab.Lib

variable {α : Type}

/-- The state of a counting semaphore. -/
structure Counter (α : Type) where
  value : ℤ
  queue : List α

/-- A call. -/
inductive Counter.Op (α : Type)
  | wait (p : α)
  | post

namespace Counter

variable {c : Counter α}

/-- One call. -/
def apply (c : Counter α) : Op α → Counter α
  | .wait p => ⟨c.value - 1, if c.value - 1 < 0 then c.queue ++ [p] else c.queue⟩
  | .post => ⟨c.value + 1, if c.value < 0 then c.queue.tail else c.queue⟩

/-- Who has to wait because of a call. -/
def arrives (c : Counter α) : Op α → List α
  | .wait p => if c.value - 1 < 0 then [p] else []
  | .post => []

/-- Who is let go by a call. -/
def departs (c : Counter α) : Op α → List α
  | .wait _ => []
  | .post => if c.value < 0 then c.queue.take 1 else []

/-- The queue is as long as the value is negative. -/
def Balanced (c : Counter α) : Prop := (c.queue.length : ℤ) = max 0 (-c.value)

/-- Somebody waits while the value is negative. -/
theorem Balanced.queue_ne_nil (h : c.Balanced) (hv : c.value < 0) : c.queue ≠ [] := by
  intro hq
  rw [Balanced, hq, List.length_nil] at h
  omega

/-- Every operation keeps the value and the queue in balance. -/
theorem Balanced.apply (h : c.Balanced) (o : Op α) : (c.apply o).Balanced := by
  unfold Balanced at h ⊢
  cases o with
  | wait p =>
    simp only [Counter.apply]
    split_ifs
    · rw [List.length_append, List.length_singleton]
      push_cast
      omega
    · omega
  | post =>
    simp only [Counter.apply]
    split_ifs
    · rw [List.length_tail]
      omega
    · omega

/-- **First in, first out**, one call: who waits afterwards is who waited or arrives, without who
departs, in order. -/
theorem fifo (c : Counter α) (o : Op α) :
    c.queue ++ c.arrives o = c.departs o ++ (c.apply o).queue := by
  cases o with
  | wait p => by_cases h : c.value - 1 < 0 <;> simp [arrives, departs, Counter.apply, h]
  | post =>
    by_cases h : c.value < 0
    · simp [arrives, departs, Counter.apply, h, ← List.drop_one]
    · simp [arrives, departs, Counter.apply, h]

/-! ### Who is inside -/

/-- Who is inside after a call of `p`: it enters with a wait that does not queue it, and with a post
it leaves and lets the first of the queue in. -/
def inside [DecidableEq α] (c : Counter α) (ins : List α) (p : α) : Op α → List α
  | .wait _ => if c.value - 1 < 0 then ins else p :: ins
  | .post => ins.erase p ++ c.departs .post

/-- A semaphore that started with `v`, and those inside. -/
structure Held (v : ℤ) (c : Counter α) (ins : List α) : Prop where
  balanced : c.Balanced
  /-- Every permit is free or with somebody inside. -/
  permits : (ins.length : ℤ) + max 0 c.value = v
  nodup : (ins ++ c.queue).Nodup

variable {v : ℤ} {ins : List α} {p : α}

/-- At the start nobody is inside. -/
theorem Held.start (hv : 0 ≤ v) : Held v (⟨v, []⟩ : Counter α) [] where
  balanced := by
    simp only [Balanced, List.length_nil]
    omega
  permits := by
    simp only [List.length_nil]
    omega
  nodup := List.nodup_nil

/-- **At most `v` are inside.** -/
theorem Held.length_le (h : Held v c ins) : (ins.length : ℤ) ≤ v := by
  have hp := h.permits
  omega

/-- Nobody waits for a free place. -/
theorem Held.full (h : Held v c ins) (hq : c.queue ≠ []) : (ins.length : ℤ) = v := by
  have hp := h.permits
  have hb : (c.queue.length : ℤ) = max 0 (-c.value) := h.balanced
  have hpos := List.length_pos_of_ne_nil hq
  omega

variable [DecidableEq α]

/-- A wait takes a place or queues up. -/
theorem Held.wait (h : Held v c ins) (hp : p ∉ ins) (hq : p ∉ c.queue) :
    Held v (c.apply (.wait p)) (c.inside ins p (.wait p)) where
  balanced := h.balanced.apply _
  permits := by
    have hpermits := h.permits
    simp only [inside, Counter.apply]
    split_ifs
    · omega
    · rw [List.length_cons]
      push_cast
      omega
  nodup := by
    simp only [inside, Counter.apply]
    split_ifs
    · rw [← List.append_assoc]
      refine h.nodup.append (List.nodup_singleton p) ?_
      rw [List.disjoint_singleton, List.mem_append, not_or]
      exact ⟨hp, hq⟩
    · rw [List.cons_append, List.nodup_cons, List.mem_append, not_or]
      exact ⟨⟨hp, hq⟩, h.nodup⟩

/-- A post gives a place back or hands it on. -/
theorem Held.post (h : Held v c ins) (hp : p ∈ ins) :
    Held v (c.apply .post) (c.inside ins p .post) where
  balanced := h.balanced.apply _
  permits := by
    have hpermits := h.permits
    have hpos := List.length_pos_of_mem hp
    have hlen := List.length_erase_of_mem hp
    simp only [inside, Counter.apply, departs, List.length_append]
    split_ifs with hneg
    · have hone : (c.queue.take 1).length = 1 := by
        rw [List.length_take]
        have hq := List.length_pos_of_ne_nil (h.balanced.queue_ne_nil hneg)
        omega
      omega
    · rw [List.length_nil]
      omega
  nodup := by
    have hsub : ((ins.erase p) ++ c.queue).Nodup :=
      h.nodup.sublist (List.Sublist.append (List.erase_sublist) (List.Sublist.refl _))
    simp only [inside, Counter.apply, departs]
    split_ifs
    · -- the first of the queue has changed places
      rw [List.append_assoc, ← List.drop_one, List.take_append_drop]
      exact hsub
    · rw [List.append_nil]
      exact hsub

end Counter

end OsLab.Lib
