import OsLab.Lib.MachineInt
import OsLab.Memory.Pointers

/-!
# Segment descriptors: `memory.h`, `initSeg` of `kvm.c`, `start.S`

* `SegDesc` with its bit fields, `SEG` and `SEG16`, and what the CPU reads from the eight bytes: base,
  limit and privilege level (`seg_reads`, `seg16_reads`).
* `initSeg` is the table that the kernel loads. `segBase_gdt`: the base of every segment is the one
  that the rest of the development uses for its selector.
* `bootGdt` is the table of the boot loader, given by its bytes; its code and data segments are those
  of the kernel (`bootQuad_eq`).
* `not_isolated`: the data segment of every process reaches every byte of memory, at one address, so
  the kernel and the other processes are at its mercy.
-/

namespace OsLab

open OsLab.Lib

/-! ### Descriptors -/

/-- `struct SegDesc`. -/
structure SegDesc where
  lim_15_0 : ℕ
  base_15_0 : ℕ
  base_23_16 : ℕ
  type : ℕ
  s : ℕ
  dpl : ℕ
  p : ℕ
  lim_19_16 : ℕ
  avl : ℕ
  rsv1 : ℕ
  db : ℕ
  g : ℕ
  base_31_24 : ℕ

/-- The bit fields in memory, lowest first. -/
def SegDesc.fields (d : SegDesc) : List (ℕ × ℕ) :=
  [(16, d.lim_15_0), (16, d.base_15_0), (8, d.base_23_16), (4, d.type), (1, d.s), (2, d.dpl), (1, d.p),
    (4, d.lim_19_16), (1, d.avl), (1, d.rsv1), (1, d.db), (1, d.g), (8, d.base_31_24)]

/-- The eight bytes of a descriptor. -/
def SegDesc.quad (d : SegDesc) : ℕ := pack d.fields

/-- The privilege level of the kernel. -/
abbrev DPL_KERN : ℕ := 0

/-- The privilege level of the processes. -/
abbrev DPL_USER : ℕ := 3

/-- The type bit of code. -/
abbrev STA_X : ℕ := 0x8

/-- The type bit of data that can be written. -/
abbrev STA_W : ℕ := 0x2

/-- The type bit of code that can be read. -/
abbrev STA_R : ℕ := 0x2

/-- The type of a 32-bit task state segment. -/
abbrev STS_T32A : ℕ := 0x9

/-- `SEG(type, base, lim, dpl)`. -/
def SEG (type : ℕ) (base lim : UInt32) (dpl : ℕ) : SegDesc where
  lim_15_0 := ((lim >>> 12) &&& 0xffff).toNat
  base_15_0 := (base &&& 0xffff).toNat
  base_23_16 := ((base >>> 16) &&& 0xff).toNat
  type := type
  s := 1
  dpl := dpl
  p := 1
  lim_19_16 := (lim >>> 28).toNat
  avl := 0
  rsv1 := 0
  db := 1
  g := 1
  base_31_24 := (base >>> 24).toNat

/-- `SEG16(type, base, lim, dpl)`. -/
def SEG16 (type : ℕ) (base lim : UInt32) (dpl : ℕ) : SegDesc where
  lim_15_0 := (lim &&& 0xffff).toNat
  base_15_0 := (base &&& 0xffff).toNat
  base_23_16 := ((base >>> 16) &&& 0xff).toNat
  type := type
  s := 0
  dpl := dpl
  p := 1
  lim_19_16 := (lim >>> 16).toNat
  avl := 0
  rsv1 := 0
  db := 1
  g := 0
  base_31_24 := (base >>> 24).toNat

/-! ### What the CPU reads -/

/-- The base of a segment. -/
def baseOf (q : ℕ) : ℕ := field q 16 16 + 2 ^ 16 * field q 32 8 + 2 ^ 24 * field q 56 8

/-- Its last address; with bit 55 the limit counts pages. -/
def limitOf (q : ℕ) : ℕ :=
  let l := field q 0 16 + 2 ^ 16 * field q 48 4
  if field q 55 1 = 1 then 4096 * l + 4095 else l

/-- The privilege that it takes to use it. -/
def dplOf (q : ℕ) : ℕ := field q 45 2

/-- A segment of the kind that code and data are in, and present. -/
def isSegment (q : ℕ) : Prop := field q 44 1 = 1 ∧ field q 47 1 = 1

variable (d : SegDesc)

/-- The CPU finds the base in three fields of the descriptor. -/
theorem baseOf_quad : baseOf d.quad =
    d.base_15_0 % 2 ^ 16 + 2 ^ 16 * (d.base_23_16 % 2 ^ 8) + 2 ^ 24 * (d.base_31_24 % 2 ^ 8) := by
  have h1 : field d.quad 16 16 = d.base_15_0 % 2 ^ 16 := field_pack d.fields 1 rfl
  have h2 : field d.quad 32 8 = d.base_23_16 % 2 ^ 8 := field_pack d.fields 2 rfl
  have h3 : field d.quad 56 8 = d.base_31_24 % 2 ^ 8 := field_pack d.fields 12 rfl
  rw [baseOf, h1, h2, h3]

/-- The CPU finds the limit in two fields, in bytes or in pages. -/
theorem limitOf_quad : limitOf d.quad =
    let l := d.lim_15_0 % 2 ^ 16 + 2 ^ 16 * (d.lim_19_16 % 2 ^ 4)
    if d.g % 2 ^ 1 = 1 then 4096 * l + 4095 else l := by
  have h1 : field d.quad 0 16 = d.lim_15_0 % 2 ^ 16 := field_pack d.fields 0 rfl
  have h2 : field d.quad 48 4 = d.lim_19_16 % 2 ^ 4 := field_pack d.fields 7 rfl
  have h3 : field d.quad 55 1 = d.g % 2 ^ 1 := field_pack d.fields 11 rfl
  rw [limitOf, h1, h2, h3]

/-- The CPU finds the privilege level in the field `dpl`. -/
theorem dplOf_quad : dplOf d.quad = d.dpl % 4 := field_pack d.fields 5 rfl

/-- A segment descriptor of code or data that is present. -/
theorem isSegment_quad : isSegment d.quad ↔ d.s % 2 = 1 ∧ d.p % 2 = 1 := by
  have h1 : field d.quad 44 1 = d.s % 2 := field_pack d.fields 4 rfl
  have h2 : field d.quad 47 1 = d.p % 2 := field_pack d.fields 6 rfl
  rw [isSegment, h1, h2]

/-- The lower half of a word. -/
theorem toNat_low16 (x : UInt32) : (x &&& 0xffff).toNat = x.toNat % 2 ^ 16 := by
  rw [UInt32.toNat_and]
  exact Nat.and_two_pow_sub_one_eq_mod x.toNat 16

/-- The lowest byte of a word. -/
theorem toNat_low8 (x : UInt32) : (x &&& 0xff).toNat = x.toNat % 2 ^ 8 := by
  rw [UInt32.toNat_and]
  exact Nat.and_two_pow_sub_one_eq_mod x.toNat 8

/-- A shift to the right is a division. -/
theorem toNat_shr (x : UInt32) {n : ℕ} (hn : n < 32) :
    (x >>> UInt32.ofNat n).toNat = x.toNat / 2 ^ n := by
  have hlit : (UInt32.ofNat n).toNat = n :=
    UInt32.toNat_ofNat_of_lt' (Nat.lt_trans hn (by decide))
  rw [UInt32.toNat_shiftRight, hlit, Nat.mod_eq_of_lt hn, Nat.shiftRight_eq_div_pow]

/-- The three parts of a base. -/
theorem base_parts (base : UInt32) : (base &&& 0xffff).toNat % 2 ^ 16 +
    2 ^ 16 * (((base >>> 16) &&& 0xff).toNat % 2 ^ 8) + 2 ^ 24 * ((base >>> 24).toNat % 2 ^ 8) =
      base.toNat := by
  have h16 : (base >>> 16).toNat = base.toNat / 2 ^ 16 := toNat_shr base (n := 16) (by decide)
  have h24 : (base >>> 24).toNat = base.toNat / 2 ^ 24 := toNat_shr base (n := 24) (by decide)
  have hlt := base.toNat_lt
  rw [toNat_low16, toNat_low8, h16, h24]
  omega

/-- **`SEG`**: the CPU reads the base and the level that were given, and the limit in pages. -/
theorem seg_reads (type : ℕ) (base lim : UInt32) (dpl : ℕ) :
    baseOf (SEG type base lim dpl).quad = base.toNat ∧
      limitOf (SEG type base lim dpl).quad = 4096 * (lim.toNat / 4096) + 4095 ∧
      dplOf (SEG type base lim dpl).quad = dpl % 4 ∧ isSegment (SEG type base lim dpl).quad := by
  have h12 : (lim >>> 12).toNat = lim.toNat / 2 ^ 12 := toNat_shr lim (n := 12) (by decide)
  have h28 : (lim >>> 28).toNat = lim.toNat / 2 ^ 28 := toNat_shr lim (n := 28) (by decide)
  have hlt := lim.toNat_lt
  refine ⟨?_, ?_, dplOf_quad _, (isSegment_quad _).mpr ⟨rfl, rfl⟩⟩
  · rw [baseOf_quad]
    exact base_parts base
  · rw [limitOf_quad]
    simp only [SEG, toNat_low16, h12, h28]
    rw [if_pos (by rfl)]
    omega

/-- **`SEG16`**: the limit counts bytes, as far as it fits into 20 bits. -/
theorem seg16_reads (type : ℕ) (base lim : UInt32) (dpl : ℕ) :
    baseOf (SEG16 type base lim dpl).quad = base.toNat ∧
      limitOf (SEG16 type base lim dpl).quad = lim.toNat % 2 ^ 20 ∧
      dplOf (SEG16 type base lim dpl).quad = dpl % 4 := by
  have h16 : (lim >>> 16).toNat = lim.toNat / 2 ^ 16 := toNat_shr lim (n := 16) (by decide)
  have hlt := lim.toNat_lt
  refine ⟨?_, ?_, dplOf_quad _⟩
  · rw [baseOf_quad]
    exact base_parts base
  · rw [limitOf_quad]
    simp only [SEG16, toNat_low16, h16]
    rw [if_neg (by decide)]
    omega

/-! ### The kernel's table -/

/-- `sizeof(TSS)`: 25 words. -/
abbrev TSS_SIZE : ℕ := 100

/-- The selector index of the task state segment. -/
abbrev SEG_TSS : UInt32 := 7

/-- The descriptors that `initSeg` writes; `tss` is the address of the task state segment. -/
def initSeg (tss : UInt32) (index : UInt32) : Option SegDesc :=
  if index = SEG_KCODE then some (SEG (STA_X ||| STA_R) 0 0xffffffff DPL_KERN)
  else if index = SEG_KDATA then some (SEG STA_W 0 0xffffffff DPL_KERN)
  else if index = SEG_UCODE1 then some (SEG (STA_X ||| STA_R) 0 0xffffffff DPL_USER)
  else if index = SEG_UDATA1 then some (SEG STA_W 0 0xffffffff DPL_USER)
  else if index = SEG_UCODE2 then some (SEG (STA_X ||| STA_R) 0x200000 0xffffffff DPL_USER)
  else if index = SEG_UDATA2 then some (SEG STA_W 0x200000 0xffffffff DPL_USER)
  else if index = SEG_TSS then
    some { SEG16 STS_T32A tss (UInt32.ofNat (TSS_SIZE - 1)) DPL_KERN with s := 0 }
  else if index = SEG_KDISPLAY then some (SEG STA_W 0xB8000 0xffffffff DPL_USER)
  else none

/-- **Code and data segments** are as large as the address space, and begin at `segBase`. -/
theorem segBase_gdt {tss sel : UInt32} {d : SegDesc} (hd : initSeg tss (sel >>> 3) = some d)
    (hsel : sel >>> 3 ≠ SEG_TSS) :
    baseOf d.quad = segBase sel ∧ limitOf d.quad = 2 ^ 32 - 1 ∧ isSegment d.quad := by
  have hread : ∀ type base dpl, SEG type base 0xffffffff dpl = d → segBase sel = base.toNat →
      baseOf d.quad = segBase sel ∧ limitOf d.quad = 2 ^ 32 - 1 ∧ isSegment d.quad := by
    rintro type base dpl rfl hbase
    obtain ⟨hb, hl, -, hs⟩ := seg_reads type base 0xffffffff dpl
    exact ⟨hb.trans hbase.symm, hl, hs⟩
  unfold initSeg at hd
  split_ifs at hd with h1 h2 h3 h4 h5 h6 h7
  · exact hread _ _ _ (Option.some.inj hd) (by rw [segBase, h1]; rfl)
  · exact hread _ _ _ (Option.some.inj hd) (by rw [segBase, h2]; rfl)
  · exact hread _ _ _ (Option.some.inj hd) (by rw [segBase, h3]; rfl)
  · exact hread _ _ _ (Option.some.inj hd) (by rw [segBase, h4]; rfl)
  · exact hread _ _ _ (Option.some.inj hd) (by rw [segBase, h5]; rfl)
  · exact hread _ _ _ (Option.some.inj hd) (by rw [segBase, h6]; rfl)
  · exact hread _ _ _ (Option.some.inj hd) (by rw [segBase, h7]; rfl)

/-! ### The boot loader's table -/

/-- `gdt` of `start.S`, byte by byte. -/
def bootGdt : List (List ℕ) :=
  [[0, 0, 0, 0, 0, 0, 0, 0], [0xff, 0xff, 0, 0, 0, 0x9a, 0xcf, 0], [0xff, 0xff, 0, 0, 0, 0x92, 0xcf, 0],
    [0xff, 0xff, 0, 0x80, 0x0b, 0x92, 0xcf, 0]]

/-- Descriptor `i` of the boot loader. -/
def bootQuad (i : ℕ) : ℕ := pack ((bootGdt.getD i []).map fun b => (8, b))

/-- The loader's code and data segments are those of the kernel; its display segment has another
level. -/
theorem bootQuad_eq (tss : UInt32) :
    (initSeg tss SEG_KCODE).map SegDesc.quad = some (bootQuad 1) ∧
      (initSeg tss SEG_KDATA).map SegDesc.quad = some (bootQuad 2) ∧
      baseOf (bootQuad 3) = 0xB8000 ∧ dplOf (bootQuad 3) = DPL_KERN :=
  ⟨rfl, rfl, rfl, rfl⟩

/-! ### No process is confined -/

variable {k k' : Kernel} {Q : Queues} {e : Event} {es : List Event} {img : Image} {p : Node}
  {f : TfField} {x y : UInt32}

/-- The first process has `x` in this field of its frame, every other one `y`. -/
def Selects (k : Kernel) (Q : Queues) (f : TfField) (x y : UInt32) : Prop :=
  ∀ p ∈ procs, p ∉ Q .free → k.tf p f = if p = .pcb 1 then x else y

/-- Every event keeps what the frames select. -/
theorem selects_step (hf : f ≠ .eax) (hfork : ∀ k, forkFrame k f = y) (h : Sound k Q)
    (hs : Selects k Q f x y) (hk : step k e = .ok k') : Selects k' (stepQueues k Q e) f x y := by
  intro p hp hfree
  by_cases hc : e = .sys .fork → p ≠ .pcb k.pNum
  · rw [tf_of_step h hk hf hc]
    refine hs p hp fun hold => hfree ?_
    by_cases he : e = .sys .fork
    · subst he
      change p ∈ forkQueues k Q .free
      rw [forkQueues, Queues.push_of_ne _ _ (by simp), Function.update_self]
      exact (List.mem_erase_of_ne (hc rfl)).mpr hold
    · exact mem_stepQueues_free he hold
  · push Not at hc
    obtain ⟨rfl, rfl⟩ := hc
    simp only [step] at hk
    split_ifs at hk with hu
    obtain ⟨hchild, -, -, nx, rfl⟩ := forkAux_placed h.placed hk
    rw [tf_child_of_fork (h.placed.ne_current hchild), hfork, if_neg (child_ne_first h.placed hu.1)]

/-- The data selector of the first process. -/
theorem tf_ds_boot (hb : boot img = .ok k) (p : Node) (hp : p = .pcb 1) :
    k.tf p .ds = USEL SEG_UDATA1 := by
  obtain ⟨-, nx, rfl⟩ := placed_boot hb
  change (startFrame (.pcb 1) img.entry (Kernel.bss img)).tf p .ds = _
  unfold startFrame
  simp only [setTf_tf]
  simp [hp]

/-- The data selectors that `preparePCB` and `fork_aux` give. -/
theorem selects_run (hk : runFrom img es = .ok k) :
    ∃ Q, Sound k Q ∧ Selects k Q .ds (USEL SEG_UDATA1) (USEL SEG_UDATA2) := by
  apply runFrom_invariant hk
  · intro k hb
    refine ⟨_, sound_boot hb, fun p hp hfree => ?_⟩
    have hone := (mem_startQueues p hp).resolve_right hfree
    rw [if_pos hone, tf_ds_boot hb p hone]
  · rintro k k' e ⟨Q, hQ, hsel⟩ hs
    exact ⟨_, (sound_step hQ hs).1, selects_step (by simp) (fun _ => rfl) hQ hsel hs⟩

/-- An offset for every address, and only one. -/
theorem existsUnique_offset {base a : ℕ} (hb : base < 2 ^ 32) (ha : a < 2 ^ 32) :
    ∃! o, o ≤ 2 ^ 32 - 1 ∧ (base + o) % 2 ^ 32 = a := by
  refine ⟨(a + 2 ^ 32 - base) % 2 ^ 32, ⟨by omega, by omega⟩, ?_⟩
  rintro o ⟨ho, rfl⟩
  omega

/-- **No process is confined**: the descriptor of its data segment lets it use every byte of the
machine's memory, in ring 3 and at exactly one address. -/
theorem not_isolated (tss : UInt32) (hk : runFrom img es = .ok k) (hp : p ∈ procs) (ha : alive k p) :
    ∃ d, initSeg tss (k.tf p .ds >>> 3) = some d ∧ dplOf d.quad = DPL_USER ∧ isSegment d.quad ∧
      ∀ a < 2 ^ 32, ∃! o, o ≤ limitOf d.quad ∧ dataAddr p o k = a := by
  obtain ⟨Q, hQ, hsel⟩ := selects_run hk
  have hds := hsel p hp fun hf => ha (hQ.placed.state .free p hf)
  have hdesc : ∀ sel base, k.tf p .ds = sel → initSeg tss (sel >>> 3) =
      some (SEG STA_W base 0xffffffff DPL_USER) → sel >>> 3 ≠ SEG_TSS →
      ∃ d, initSeg tss (k.tf p .ds >>> 3) = some d ∧ dplOf d.quad = DPL_USER ∧ isSegment d.quad ∧
        ∀ a < 2 ^ 32, ∃! o, o ≤ limitOf d.quad ∧ dataAddr p o k = a := by
    rintro sel base rfl hd hne
    obtain ⟨hb, hl, hs⟩ := segBase_gdt hd hne
    refine ⟨_, hd, (seg_reads ..).2.2.1, hs, fun a ha => ?_⟩
    rw [hl]
    exact existsUnique_offset (hb ▸ (seg_reads ..).1 ▸ base.toNat_lt) ha
  split_ifs at hds
  · exact hdesc _ 0 hds rfl (by decide)
  · exact hdesc _ 0x200000 hds rfl (by decide)

/-- The data segment of the first process, after ten ticks. -/
theorem not_isolated_first : ∃ k, runFrom .blank (.replicate 10 .timer) = .ok k ∧
    ∃ d, initSeg 0 (k.tf (.pcb 1) .ds >>> 3) = some d ∧ dplOf d.quad = DPL_USER ∧ isSegment d.quad ∧
      ∀ a < 2 ^ 32, ∃! o, o ≤ limitOf d.quad ∧ dataAddr (.pcb 1) o k = a := by
  obtain ⟨k, hk, ha⟩ := okAnd_eq_true.mp (show okAnd (runFrom .blank (.replicate 10 .timer))
    (fun k => alive k (.pcb 1)) = true by decide +kernel)
  exact ⟨k, hk, not_isolated 0 hk (by decide) (of_decide_eq_true ha)⟩

end OsLab
