import OsLab.Kernel.Files

/-!
# User buffers

A handler stores to a user buffer byte by byte, at addresses that wrap at 32 bits. `loadBytes` reads
such a buffer back: a buffer that does not go round the whole address space then holds what was
stored (`loadBytes_storeBytes`).

The machine has one memory, in which the kernel's objects lie as well. `flat` is that memory, and
`storeBytes_flat` says that a buffer that keeps away from the kernel's objects is stored to it as to
the memory of the processes alone.
-/

namespace OsLab

variable {mem kern : ℕ → UInt8} {a : ℕ} {bs : List UInt8}

/-! ### Storing and reading back -/

/-- The `n` bytes of the buffer at address `a`. -/
def loadBytes (mem : ℕ → UInt8) (a n : ℕ) : List UInt8 :=
  (List.range n).map fun i => mem ((a + i) % 2 ^ 32)

/-- Outside the buffer nothing changes. -/
theorem storeBytes_of_ne {x : ℕ} (ha : a < 2 ^ 32) (h : ∀ i < bs.length, x ≠ (a + i) % 2 ^ 32) :
    storeBytes mem a bs x = mem x := by
  induction bs generalizing mem a with
  | nil => rfl
  | cons b bs ih =>
    have h0 : x ≠ a := by
      have := h 0 (by simp)
      rwa [Nat.add_zero, Nat.mod_eq_of_lt ha] at this
    rw [storeBytes, ih (Nat.mod_lt _ (by decide)) ?_, Function.update_of_ne h0]
    intro i hi
    have hne := h (i + 1) (by simpa using hi)
    rwa [Nat.mod_add_mod, Nat.add_assoc, Nat.add_comm 1 i]

/-- **A stored buffer** can be read back. -/
theorem loadBytes_storeBytes (ha : a < 2 ^ 32) (hlen : bs.length ≤ 2 ^ 32) :
    loadBytes (storeBytes mem a bs) a bs.length = bs := by
  induction bs generalizing mem a with
  | nil => rfl
  | cons b bs ih =>
    have hlen' : bs.length < 2 ^ 32 := Nat.lt_of_succ_le hlen
    have hrest : loadBytes (storeBytes mem a (b :: bs)) ((a + 1) % 2 ^ 32) bs.length = bs :=
      ih (Nat.mod_lt _ (by decide)) (Nat.le_of_lt hlen')
    have hfirst : storeBytes mem a (b :: bs) a = b := by
      rw [storeBytes, storeBytes_of_ne (Nat.mod_lt _ (by decide)) ?_, Function.update_self]
      intro i hi
      omega
    refine Eq.trans ?_ (congrArg (b :: ·) hrest)
    unfold loadBytes
    rw [List.length_cons, List.range_succ_eq_map, List.map_cons, List.map_map, Nat.add_zero,
      Nat.mod_eq_of_lt ha, hfirst]
    congr 1
    apply List.map_congr_left
    intro i _
    simp only [Function.comp_apply, Nat.succ_eq_add_one]
    congr 1
    omega

/-! ### One memory for the processes and the kernel -/

section Flat

variable {own : ℕ → Prop} [DecidablePred own]

/-- The memory of the machine: at the addresses of the kernel's objects it has the bytes `kern`, at
all others those of `mem`. -/
def flat (own : ℕ → Prop) [DecidablePred own] (kern mem : ℕ → UInt8) (x : ℕ) : UInt8 :=
  if own x then kern x else mem x

/-- Away from the kernel's objects. -/
theorem flat_of_not_own (h : ¬own a) : flat own kern mem a = mem a := if_neg h

/-- One byte is stored to an address that is not the kernel's. -/
theorem update_flat (h : ¬own a) (b : UInt8) :
    Function.update (flat own kern mem) a b = flat own kern (Function.update mem a b) := by
  funext x
  by_cases hx : x = a
  · subst hx
    rw [Function.update_self, flat_of_not_own h, Function.update_self]
  · rw [Function.update_of_ne hx, flat, flat, Function.update_of_ne hx]

/-- **A buffer away from the kernel's objects** is stored as if these were not there: the induction is
on the bytes, whose addresses wrap. -/
theorem storeBytes_flat (ha : a < 2 ^ 32) (h : ∀ i < bs.length, ¬own ((a + i) % 2 ^ 32)) :
    storeBytes (flat own kern mem) a bs = flat own kern (storeBytes mem a bs) := by
  induction bs generalizing mem a with
  | nil => rfl
  | cons b bs ih =>
    have h0 : ¬own a := by
      have hfirst := h 0 (by simp)
      rwa [Nat.add_zero, Nat.mod_eq_of_lt ha] at hfirst
    rw [storeBytes, storeBytes, update_flat h0]
    apply ih (Nat.mod_lt _ (by decide))
    intro i hi
    have hnext := h (i + 1) (by simpa using hi)
    rwa [Nat.mod_add_mod, Nat.add_assoc, Nat.add_comm 1 i]

end Flat

end OsLab
