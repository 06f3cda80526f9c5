import PrintOS.Laws.Memory.PMemInit

/-!
# Where the bitmap is

The bitmap of the frames is put at the start of the largest conventional segment. The assertion
before compares the segment's bytes with the frames divided by eight, rounded down, and the bitmap
has that number rounded up. It asks for more bytes, not for as many, and so the two roundings fit
together (`bitmap_in_segment`).

What a function touches is told by two laws (`OnlyIn`): memory outside of a range is left as it was,
and what the function does in the range depends on the range.
-/

namespace PrintOS

open ByteMemory (Mem)

/-- The function reads and writes memory in a range only. -/
structure OnlyIn (R : Nat → Prop) (f : Mem → Mem) : Prop where
  writes : ∀ m x, ¬ R x → f m x = m x
  reads : ∀ m m', (∀ x, R x → m x = m' x) → ∀ x, R x → f m x = f m' x

namespace MemoryMap

/-- The running maximum is the size of no smaller segment than those that were looked at. -/
theorem le_foldl_largestFreeSeg {descs : List EfiMMapDesc} (best : Nat × Nat) :
    best.1 ≤ (descs.foldl largestFreeSegStep best).1 ∧
      ∀ desc ∈ descs, desc.type = EfiMemoryType.conventionalMemory.code →
        u64 (desc.pages * FRAME_SZ) ≤ (descs.foldl largestFreeSegStep best).1 := by
  induction descs generalizing best with
  | nil => exact ⟨Nat.le_refl _, fun desc h => absurd h List.not_mem_nil⟩
  | cons desc rest ih =>
    have step : best.1 ≤ (largestFreeSegStep best desc).1 ∧
        (desc.type = EfiMemoryType.conventionalMemory.code →
          u64 (desc.pages * FRAME_SZ) ≤ (largestFreeSegStep best desc).1) := by
      simp only [largestFreeSegStep]
      split
      · split
        · next larger => exact ⟨Nat.le_of_lt larger, fun _ => Nat.le_refl _⟩
        · next larger => exact ⟨Nat.le_refl _, fun _ => Nat.not_lt.mp larger⟩
      · next other => exact ⟨Nat.le_refl _, fun conv => absurd conv other⟩
    obtain ⟨hbest, hrest⟩ := ih (largestFreeSegStep best desc)
    rw [List.foldl_cons]
    refine ⟨Nat.le_trans step.1 hbest, fun d hd conv => ?_⟩
    rcases List.mem_cons.mp hd with rfl | hd
    · exact Nat.le_trans (step.2 conv) hbest
    · exact hrest d hd conv

/-- What the kernel may rely on of a descriptor: its size and its end are numbers of 64 bits. -/
def Fits (desc : EfiMMapDesc) : Prop := desc.pages * FRAME_SZ < 2 ^ 64 ∧ desc.stop < 2 ^ 64

/-- The descriptor is conventional memory, and no such one is larger. -/
structure Largest (mmap : MemoryMap) (desc : EfiMMapDesc) : Prop where
  mem : desc ∈ mmap.descs
  conventional : desc.type = EfiMemoryType.conventionalMemory.code
  largest : ∀ d ∈ mmap.descs, d.type = EfiMemoryType.conventionalMemory.code → d.pages ≤ desc.pages

theorem getLargestFreeSeg_largest {mmap : MemoryMap} (fits : ∀ d ∈ mmap.descs, Fits d)
    (h : 0 < mmap.getLargestFreeSeg.1) :
    ∃ desc, Largest mmap desc ∧ mmap.getLargestFreeSeg = (desc.pages * FRAME_SZ, desc.paddr) := by
  obtain ⟨desc, hdesc, conv, hseg⟩ := getLargestFreeSeg_mem h
  rw [u64_of_lt (fits desc hdesc).1] at hseg
  refine ⟨desc, ⟨hdesc, conv, fun d hd hconv => ?_⟩, hseg⟩
  have hle : u64 (d.pages * FRAME_SZ) ≤ mmap.getLargestFreeSeg.1 :=
    (le_foldl_largestFreeSeg (0, 0)).2 d hd hconv
  rw [u64_of_lt (fits d hd).1, hseg] at hle
  exact Nat.le_of_mul_le_mul_right hle (by decide)

end MemoryMap

namespace Bitmap

variable {b : Bitmap} {R : Nat → Prop}

theorem onlyIn_set {idx : Nat} (h : R (b.byteAddr idx)) : OnlyIn R (b.set · idx) where
  writes m x hx := Mem.write_of_ne fun heq => hx (heq ▸ h)
  reads m m' same x hx := by
    by_cases heq : x = b.byteAddr idx
    · rw [heq, set, set, Mem.write_self, Mem.write_self, same _ h]
    · rw [set, set, Mem.write_of_ne heq, Mem.write_of_ne heq, same x hx]

theorem onlyIn_unset {idx : Nat} (h : R (b.byteAddr idx)) : OnlyIn R (b.unset · idx) where
  writes m x hx := Mem.write_of_ne fun heq => hx (heq ▸ h)
  reads m m' same x hx := by
    by_cases heq : x = b.byteAddr idx
    · rw [heq, unset, unset, Mem.write_self, Mem.write_self, same _ h]
    · rw [unset, unset, Mem.write_of_ne heq, Mem.write_of_ne heq, same x hx]

theorem get_congr {idx : Nat} {m m' : Mem} (h : m (b.byteAddr idx) = m' (b.byteAddr idx)) :
    b.get m idx = b.get m' idx := by
  rw [get_eq, get_eq, h]

theorem onlyIn_new {self buf bits : Nat}
    (h : ∀ x, buf ≤ x → x < buf + u64 (bits + 7) / 8 → R x) :
    OnlyIn R fun m => (new self buf bits m).2 where
  writes m x hx := by
    refine Mem.fill_of_outside ?_
    by_contra inside
    exact hx (h x (by omega) (by omega))
  reads m m' same x hx := by
    simp only [new, memset, Mem.fill_apply, same x hx]

/-- The constructor and the three functions for the indices below `bits` touch a range only. -/
structure Touches (R : Nat → Prop) (self bits : Nat) (b : Bitmap) : Prop where
  new : OnlyIn R fun m => (Bitmap.new self b.privBuf bits m).2
  get : ∀ idx < bits, ∀ m m', (∀ x, R x → m x = m' x) → b.get m idx = b.get m' idx
  set : ∀ idx < bits, OnlyIn R (b.set · idx)
  unset : ∀ idx < bits, OnlyIn R (b.unset · idx)

theorem touches_of_bytes {self bits : Nat} (small : bits + 7 < 2 ^ 64)
    (h : ∀ x, b.privBuf ≤ x → x < b.privBuf + (bits + 7) / 8 → R x) : Touches R self bits b := by
  have hbyte : ∀ idx < bits, R (b.byteAddr idx) := by
    intro idx hidx
    rw [byteAddr_eq]
    exact h _ (Nat.le_add_right _ _) (by omega)
  refine ⟨onlyIn_new (by rwa [u64_of_lt small]), fun idx hidx m m' same => ?_,
    fun idx hidx => onlyIn_set (hbyte idx hidx), fun idx hidx => onlyIn_unset (hbyte idx hidx)⟩
  exact get_congr (same _ (hbyte idx hidx))

end Bitmap

namespace PMem

/-- What the assertions of `__init_bitmap` say where they pass, and the bitmap that it makes. -/
theorem initBitmap_ok {mmap : MemoryMap} {self : Nat} {mem mem' : Mem} {b : Bitmap}
    (ok : initBitmap mmap self mem = .ok (b, mem')) :
    0 < mmap.getLargestFreeSeg.1 ∧ mmap.getPageFramesNumber / 8 < mmap.getLargestFreeSeg.1 ∧
      Bitmap.new self mmap.getLargestFreeSeg.2 mmap.getPageFramesNumber mem = (b, mem') := by
  unfold initBitmap at ok
  obtain ⟨_, hpos, ok⟩ := Except.bind_eq_ok.mp ok
  obtain ⟨_, -, ok⟩ := Except.bind_eq_ok.mp ok
  obtain ⟨_, hroom, ok⟩ := Except.bind_eq_ok.mp ok
  exact ⟨kassert_eq_ok.mp hpos, kassert_eq_ok.mp hroom, Except.ok.inj ok⟩

/-- **The bitmap is in one segment.** Where the assertions of `__init_bitmap` pass, its bitmap has a
bit for every frame, lies in a conventional descriptor of maximal size, and everything that its
constructor, `get`, `set` and `unset` touch for a frame of the machine is there. -/
theorem bitmap_in_segment {mmap : MemoryMap} {self : Nat} {mem mem' : Mem} {b : Bitmap}
    (fits : ∀ d ∈ mmap.descs, MemoryMap.Fits d)
    (ok : initBitmap mmap self mem = .ok (b, mem')) :
    ∃ desc, MemoryMap.Largest mmap desc ∧
      b.size = (mmap.getPageFramesNumber + 7) / 8 ∧
      desc.paddr ≤ b.privBuf ∧ b.privBuf + b.size ≤ desc.stop ∧ desc.stop < 2 ^ 64 ∧
      mem' = (Bitmap.new self b.privBuf mmap.getPageFramesNumber mem).2 ∧
      b.Touches (fun x => b.privBuf ≤ x ∧ x < b.privBuf + b.size) self mmap.getPageFramesNumber := by
  obtain ⟨hpos, hroom, hnew⟩ := initBitmap_ok ok
  obtain ⟨desc, largest, hseg⟩ := MemoryMap.getLargestFreeSeg_largest fits hpos
  have hframes := mmap.getPageFramesNumber_lt
  have hsmall : mmap.getPageFramesNumber + 7 < 2 ^ 64 := by omega
  rw [hseg] at hroom hnew
  obtain ⟨rfl, rfl⟩ := Prod.mk.inj hnew
  have hsize : u64 (mmap.getPageFramesNumber + 7) / 8 = (mmap.getPageFramesNumber + 7) / 8 := by
    rw [u64_of_lt hsmall]
  refine ⟨desc, largest, hsize, Nat.le_refl _, ?_, (fits desc largest.mem).2, rfl, ?_⟩
  · -- more bytes than the frames divided by eight, so as many as the frames rounded up
    simp only [EfiMMapDesc.stop, hsize, FRAME_SZ] at hroom ⊢
    omega
  · refine Bitmap.touches_of_bytes hsmall fun x hx hx' => ⟨hx, ?_⟩
    simp only [hsize]
    exact hx'

/-- The bitmap of the small machine is one byte, at the start of its one segment. -/
theorem small_bitmap_in_segment : ∃ b mem', initBitmap smallMap 0x5008 (fun _ => 0) = .ok (b, mem') ∧
    b = ⟨0x1000, 1, 0x5008⟩ ∧
    ∃ desc, MemoryMap.Largest smallMap desc ∧ b.privBuf + b.size ≤ desc.stop := by
  have fits : ∀ d ∈ smallMap.descs, MemoryMap.Fits d := by
    intro d hd
    obtain rfl := List.mem_singleton.mp hd
    unfold MemoryMap.Fits
    decide
  have ok : initBitmap smallMap 0x5008 (fun _ => 0) =
      .ok (Bitmap.new 0x5008 smallMap.getLargestFreeSeg.2 smallMap.getPageFramesNumber
        fun _ => 0) := by
    simp only [initBitmap]
    rw [kassert_of (by decide +kernel), kassert_of (by decide +kernel),
      kassert_of (by decide +kernel)]
    rfl
  obtain ⟨desc, largest, -, -, hstop, -⟩ := bitmap_in_segment fits ok
  exact ⟨_, _, ok, by decide +kernel, desc, largest, hstop⟩

end PMem

end PrintOS
