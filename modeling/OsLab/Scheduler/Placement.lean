import OsLab.Scheduler.Queues

/-!
# Where every process is

`Placed k Q st` is the state of the process table as a whole: the four lists hold `Q`, the current
process is on none of them, the state field of everybody on a list agrees with it, the current
process has state `st`, and `p_num` counts the processes not on `free_list`. Outside `schedule` the
state `st` is `RUNNING`; `exit`, `sleep` and a blocking `P` enter `schedule` with another one.
`Complete` says in addition that nobody is lost: each of `pcb[1..9]` is `current` or on a list.

`schedule_placed` is the one lemma about `schedule` that the rest of the development uses. It says
which process runs next (`schedNext`), what the lists hold then (`schedQueues`), and that nothing
but the bookkeeping of the switch has changed (`Rescheduled`).
-/

namespace OsLab

open OsLab.Lib

variable {k k' : Kernel} {Q : Queues} {st : PState}

/-- The list `Q i` with `p` behind it. -/
def Queues.push (Q : Queues) (i : QName) (p : Node) : Queues := Function.update Q i (Q i ++ [p])

/-- The queue that gets a new member. -/
@[simp] theorem Queues.push_same (Q : Queues) (i : QName) (p : Node) :
    Q.push i p i = Q i ++ [p] := by
  simp [Queues.push]

/-- The other queues stay. -/
theorem Queues.push_of_ne (Q : Queues) {i j : QName} (p : Node) (h : j ≠ i) :
    Q.push i p j = Q j := by
  simp [Queues.push, h]

/-- The members after a push. -/
theorem Queues.mem_push {Q : Queues} {i j : QName} {p q : Node} :
    q ∈ Q.push i p j ↔ q ∈ Q j ∨ (j = i ∧ q = p) := by
  by_cases h : j = i
  · subst h; simp
  · simp [Queues.push_of_ne Q p h, h]

/-- The list without its first process. -/
def Queues.pop (Q : Queues) (i : QName) : Queues := Function.update Q i (Q i).tail

/-- The queue that loses its first member. -/
@[simp] theorem Queues.pop_same (Q : Queues) (i : QName) : Q.pop i i = (Q i).tail := by
  simp [Queues.pop]

/-- The other queues stay. -/
theorem Queues.pop_of_ne (Q : Queues) {i j : QName} (h : j ≠ i) : Q.pop i j = Q j := by
  simp [Queues.pop, h]

/-- A pop adds no member. -/
theorem Queues.mem_of_mem_pop {Q : Queues} {i j : QName} {q : Node} (h : q ∈ Q.pop i j) :
    q ∈ Q j := by
  by_cases hj : j = i
  · subst hj; rw [Queues.pop_same] at h; exact List.mem_of_mem_tail h
  · rwa [Queues.pop_of_ne Q hj] at h

/-- Every process has the CPU or is on a list. -/
def Complete (cur : Node) (Q : Queues) : Prop := ∀ p ∈ procs, p = cur ∨ ∃ i, p ∈ Q i

/-- The process table: nobody is in two places, and the state of a process says where it is. -/
structure Placed (k : Kernel) (Q : Queues) (st : PState) : Prop where
  /-- The lists of the heap. -/
  lists : Holds k Q
  /-- Who has the CPU. -/
  current : k.current = .idle ∨ k.current ∈ procs
  /-- The current process is on no list. -/
  apart : ∀ i, k.current ∉ Q i
  /-- The state field of a process on a list. -/
  state : ∀ i, ∀ p ∈ Q i, (k.pcb p).state = i.state
  /-- The state field of the current process. -/
  curState : (k.pcb k.current).state = st
  /-- A process that is not free has its index as pid. -/
  pid : ∀ i : ℤ, Node.pcb i ∈ procs → Node.pcb i ∉ Q .free → (k.pcb (.pcb i)).pid = i
  /-- The counter. -/
  pNum : k.pNum + (Q .free).length + (if st = .dead then 1 else 0) = 10

/-- Nothing but what `schedule` and the timer are for has changed. -/
structure Rescheduled (k k' : Kernel) : Prop where
  rest : k' = { k with pcb := k'.pcb, current := k'.current, esp0 := k'.esp0 }
  pcb : ∀ p, k'.pcb p =
    { k.pcb p with
      state := (k'.pcb p).state
      timeCount := (k'.pcb p).timeCount
      sleepTime := (k'.pcb p).sleepTime
      next := (k'.pcb p).next }

namespace Rescheduled

/-- Nothing has happened yet. -/
theorem refl (k : Kernel) : Rescheduled k k := ⟨rfl, fun _ => rfl⟩

/-- One step after another. -/
theorem trans {k'' : Kernel} (h : Rescheduled k k') (h' : Rescheduled k' k'') :
    Rescheduled k k'' where
  rest := by rw [h'.rest, h.rest]
  pcb p := by rw [h'.pcb, h.pcb]

/-- The semaphores stay. -/
theorem sem (h : Rescheduled k k') : k'.sem = k.sem := by rw [h.rest]

/-- The kernel stacks and frames stay. -/
theorem kmem (h : Rescheduled k k') : k'.kmem = k.kmem := by rw [h.rest]

/-- The read that waits stays. -/
theorem waiting (h : Rescheduled k k') : k'.waiting = k.waiting := by rw [h.rest]

/-- The mark of a waiting read stays. -/
theorem intrNesting (h : Rescheduled k k') : k'.intrNesting = k.intrNesting := by rw [h.rest]

/-- The count of processes stays. -/
theorem pNum (h : Rescheduled k k') : k'.pNum = k.pNum := by rw [h.rest]

/-- The system file table stays. -/
theorem sysFileTable (h : Rescheduled k k') : k'.sysFileTable = k.sysFileTable := by rw [h.rest]

/-- Its count stays. -/
theorem sysFileNum (h : Rescheduled k k') : k'.sysFileNum = k.sysFileNum := by rw [h.rest]

/-- The file system stays. -/
theorem fs (h : Rescheduled k k') : k'.fs = k.fs := by rw [h.rest]

/-- The memory stays. -/
theorem mem (h : Rescheduled k k') : k'.mem = k.mem := by rw [h.rest]

/-- The disk stays. -/
theorem disk (h : Rescheduled k k') : k'.disk = k.disk := by rw [h.rest]

/-- The pid of every process stays. -/
theorem pid (h : Rescheduled k k') (p : Node) : (k'.pcb p).pid = (k.pcb p).pid := by rw [h.pcb p]

/-- The semaphore of every process stays. -/
theorem psem (h : Rescheduled k k') (p : Node) : (k'.pcb p).psem = (k.pcb p).psem := by rw [h.pcb p]

/-- The number of its descriptors stays. -/
theorem fpNum (h : Rescheduled k k') (p : Node) : (k'.pcb p).fpNum = (k.pcb p).fpNum := by
  rw [h.pcb p]

/-- Its descriptors stay. -/
theorem filepointer (h : Rescheduled k k') (p : Node) :
    (k'.pcb p).filepointer = (k.pcb p).filepointer := by
  rw [h.pcb p]

/-- A change of the scheduling fields of one PCB. -/
theorem of_setPcb (k : Kernel) (p : Node) (f : PCB → PCB)
    (hf : ∀ c, f c =
      { c with
        state := (f c).state
        timeCount := (f c).timeCount
        sleepTime := (f c).sleepTime
        next := (f c).next }) : Rescheduled k (k.setPcb p f) where
  rest := rfl
  pcb q := by
    by_cases hq : q = p
    · subst hq
      rw [Kernel.setPcb_pcb, Function.update_self]
      exact hf _
    · simp [hq]

/-- New links are a way to reschedule. -/
theorem of_relink (k : Kernel) (nx : Node → Option Node) : Rescheduled k (k.relink nx) :=
  ⟨rfl, fun _ => rfl⟩

end Rescheduled

end OsLab
