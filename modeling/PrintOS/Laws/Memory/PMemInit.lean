import PrintOS.Laws.Memory.PMem

/-!
# What the constructor of the physical memory allocator leaves

The constructor locks all frames, frees those of the usable descriptors, and locks three
groups again. `constructed_free_iff` says which frames are free at its end, for every memory map
within the machine's frames. The laws about what the allocator protects compare this with what
should be protected:

* the bitmap's own buffer: the range locked for it is counted from the address of the member
  `__buf`, and only whole frames of it are counted;
* the kernel's stack: one frame of it is locked;
* the frames of the machine: their number is read off the last descriptor.

Each of the three fails for some map, and the law names exactly the maps and placements for
which it holds.
-/

namespace PrintOS.PMem

open ByteMemory (Mem)

variable {mmap : MemoryMap} {stack self : Nat} {mem : Mem} {p q : PMem} {i f : Nat}

/-! ## The loops as lists of frames -/

/-- The indices that the constructor passes to `free_frame`, in their order. -/
def usableFrames (descs : List EfiMMapDesc) : List Nat :=
  descs.flatMap fun desc =>
    if desc.isUsableMemory then (List.range desc.pages).map (descFrame desc) else []

/-- The size in bytes of the bitmap for a memory map. -/
def bitmapBytes (mmap : MemoryMap) : Nat := u64 (mmap.getPageFramesNumber + 7) / 8

/-- The frames that the constructor locks for the bitmap. -/
def bitmapRange (mmap : MemoryMap) (self : Nat) : List Nat :=
  (List.range (bitmapBytes mmap / FRAME_SZ)).map (ptrToFrameIdx self + ·)

theorem freeUsable_eq (p : PMem) (descs : List EfiMMapDesc) :
    p.freeUsable descs = (usableFrames descs).foldl freeFrame p := by
  induction descs generalizing p with
  | nil => rfl
  | cons desc rest ih =>
    rw [usableFrames, List.flatMap_cons, List.foldl_append, ← usableFrames, ← ih]
    unfold freeUsable
    rw [List.foldl_cons]
    split
    · rw [List.foldl_map]
    · rfl

theorem lockBitmap_eq (p : PMem) :
    p.lockBitmap = ((List.range (p.bitmap.size / FRAME_SZ)).map
      (ptrToFrameIdx p.bitmap.buf + ·)).foldl lockFrame p := by
  rw [List.foldl_map]
  rfl

theorem mem_usableFrames {descs : List EfiMMapDesc} :
    i ∈ usableFrames descs ↔
      ∃ desc ∈ descs, desc.isUsableMemory = true ∧ ∃ n < desc.pages, descFrame desc n = i := by
  unfold usableFrames
  rw [List.mem_flatMap]
  refine exists_congr fun desc => and_congr_right fun _ => ?_
  split
  · next h => simp [h]
  · next h => simp [h]

theorem mem_bitmapRange :
    i ∈ bitmapRange mmap self ↔ ptrToFrameIdx self ≤ i ∧
      i < ptrToFrameIdx self + bitmapBytes mmap / FRAME_SZ := by
  unfold bitmapRange
  rw [List.mem_map]
  constructor
  · rintro ⟨n, hn, rfl⟩
    have := List.mem_range.mp hn
    omega
  · rintro ⟨h1, h2⟩
    exact ⟨i - ptrToFrameIdx self, List.mem_range.mpr (by omega), by omega⟩

theorem bitmapBytes_eq (mmap : MemoryMap) :
    bitmapBytes mmap = (mmap.getPageFramesNumber + 7) / 8 := by
  have := mmap.getPageFramesNumber_lt
  rw [bitmapBytes, u64_of_lt (by omega)]

/-! ## The constructed allocator -/

/-- A constructor call that returns has passed its assertions and run its loops. -/
theorem new_ok (h : PMem.new mmap stack self mem = .ok p) :
    mmap.getPageFramesNumber / 8 < mmap.getLargestFreeSeg.1 ∧ 0 < mmap.getPageFramesNumber ∧
      p = (start mmap self mem).initFrames mmap.descs stack ∧ p.locked 0 = true := by
  unfold PMem.new at h
  obtain ⟨⟨bitmap, mem'⟩, hinit, h⟩ := Except.bind_eq_ok.mp h
  obtain ⟨_, hframes, h⟩ := Except.bind_eq_ok.mp h
  obtain ⟨_, -, h⟩ := Except.bind_eq_ok.mp h
  obtain ⟨_, -, h⟩ := Except.bind_eq_ok.mp h
  obtain ⟨_, hzero, h⟩ := Except.bind_eq_ok.mp h
  cases h
  unfold initBitmap at hinit
  obtain ⟨_, -, hinit⟩ := Except.bind_eq_ok.mp hinit
  obtain ⟨_, -, hinit⟩ := Except.bind_eq_ok.mp hinit
  obtain ⟨_, hroom, hinit⟩ := Except.bind_eq_ok.mp hinit
  have hmade : (bitmap, mem') =
      Bitmap.new self mmap.getLargestFreeSeg.2 mmap.getPageFramesNumber mem :=
    (Except.ok.inj hinit).symm
  have hstart : begin mmap bitmap mem' = start mmap self mem := by
    simp only [start, ← hmade]
  rw [hstart] at hzero hframes ⊢
  exact ⟨kassert_eq_ok.mp hroom, kassert_eq_ok.mp hframes, rfl, kassert_eq_ok.mp hzero⟩

/-- The lock loop, the free loop and the last locks, as one list of calls. -/
def initOps (mmap : MemoryMap) (stack self : Nat) : List Op :=
  (List.range mmap.getPageFramesNumber).map .lockFrame ++
  (usableFrames mmap.descs).map .freeFrame ++
  ([0, ptrToFrameIdx stack] ++ bitmapRange mmap self).map .lockFrame

theorem initFrames_start :
    (start mmap self mem).initFrames mmap.descs stack =
      ([0, ptrToFrameIdx stack] ++ bitmapRange mmap self).foldl lockFrame
        ((usableFrames mmap.descs).foldl freeFrame
          ((List.range mmap.getPageFramesNumber).foldl lockFrame (start mmap self mem))) := by
  simp only [initFrames]
  rw [lockBitmap_eq, bitmap_lockFrame, bitmap_lockFrame, freeUsable_eq,
    foldl_keeps PMem.bitmap (fun _ _ => bitmap_freeFrame),
    foldl_keeps PMem.bitmap (fun _ _ => bitmap_lockFrame)]
  rfl

/-- **Which frames the constructor leaves locked**, among those of a usable descriptor. -/
theorem locked_of_usable (h : PMem.new mmap stack self mem = .ok p)
    (usable : i ∈ usableFrames mmap.descs) :
    p.locked i = true ↔ i = 0 ∨ i = ptrToFrameIdx stack ∨ i ∈ bitmapRange mmap self := by
  obtain ⟨-, -, rfl, -⟩ := new_ok h
  rw [initFrames_start, locked_foldl_lockFrame, locked_foldl_freeFrame]
  simp [usable]

/-- Frame 0, the frame of `kernel.stack` and the bitmap's range are locked in any case. -/
theorem locked_of_pinned (h : PMem.new mmap stack self mem = .ok p)
    (pinned : i = 0 ∨ i = ptrToFrameIdx stack ∨ i ∈ bitmapRange mmap self) :
    p.locked i = true := by
  obtain ⟨-, -, rfl, -⟩ := new_ok h
  have hmem : i ∈ [0, ptrToFrameIdx stack] ++ bitmapRange mmap self := by simpa using pinned
  rw [initFrames_start, locked_foldl_lockFrame, decide_eq_true hmem, Bool.or_true]

/-! ## The number of frames -/

/-- No address that the constructor computes for a descriptor leaves 64 bits. -/
def NoOverflow (mmap : MemoryMap) : Prop :=
  ∀ desc ∈ mmap.descs, desc.stop + FRAME_SZ < 2 ^ 64

theorem descFrame_eq {desc : EfiMMapDesc} {n : Nat} (h : desc.paddr + n * FRAME_SZ < 2 ^ 64) :
    descFrame desc n = ptrToFrameIdx desc.paddr + n := by
  rw [descFrame, u64_of_lt h]
  simp only [ptrToFrameIdx, FRAME_SZ]
  omega

/-- The whole frames of a usable descriptor are freed, those below the end of memory. -/
theorem mem_usableFrames_of_span {desc : EfiMMapDesc} (hdesc : desc ∈ mmap.descs)
    (husable : desc.isUsableMemory = true) (hfirst : desc.paddr / FRAME_SZ ≤ i)
    (hlast : i < desc.paddr / FRAME_SZ + desc.pages) (hend : (i + 1) * FRAME_SZ ≤ 2 ^ 64) :
    i ∈ usableFrames mmap.descs := by
  simp only [FRAME_SZ] at hfirst hlast hend
  refine mem_usableFrames.mpr ⟨desc, hdesc, husable, i - desc.paddr / FRAME_SZ, ?_, ?_⟩
  · simp only [FRAME_SZ]
    omega
  · rw [descFrame_eq (by simp only [FRAME_SZ]; omega)]
    simp only [ptrToFrameIdx, FRAME_SZ]
    omega

theorem getPageFramesNumber_eq (h : NoOverflow mmap) :
    mmap.getPageFramesNumber = ptrToFrameIdx mmap.lastDesc.stop + 1 := by
  have hlast := h _ mmap.lastDesc_mem
  simp only [EfiMMapDesc.stop, FRAME_SZ] at hlast
  unfold MemoryMap.getPageFramesNumber MemoryMap.getEntireMemorySize
  rw [u64_of_lt (by simp only [FRAME_SZ]; omega)]
  simp only [ptrToFrameIdx, EfiMMapDesc.stop, FRAME_SZ]
  omega

/-- **The freed frames are frames of the machine** exactly when no usable descriptor ends more
than one frame above the last descriptor of the map, whatever the order of the others. -/
theorem freed_frames_in_range_iff (noOverflow : NoOverflow mmap) :
    (∀ idx ∈ usableFrames mmap.descs,
        idx < mmap.getPageFramesNumber ∧ idx / 8 < bitmapBytes mmap) ↔
      ∀ desc ∈ mmap.descs, desc.isUsableMemory = true → 0 < desc.pages →
        ptrToFrameIdx desc.stop ≤ ptrToFrameIdx mmap.lastDesc.stop + 1 := by
  have hframes := getPageFramesNumber_eq noOverflow
  have hbytes := bitmapBytes_eq mmap
  constructor
  · intro h desc hdesc husable hpages
    have hstop := noOverflow desc hdesc
    simp only [EfiMMapDesc.stop, FRAME_SZ] at hstop
    -- the descriptor's last page has the highest index
    have hlast : descFrame desc (desc.pages - 1) = ptrToFrameIdx desc.paddr + (desc.pages - 1) :=
      descFrame_eq (by simp only [FRAME_SZ]; omega)
    have hmem : descFrame desc (desc.pages - 1) ∈ usableFrames mmap.descs :=
      mem_usableFrames.mpr ⟨desc, hdesc, husable, desc.pages - 1, by omega, rfl⟩
    have hlt := (h _ hmem).1
    rw [hlast, hframes] at hlt
    simp only [ptrToFrameIdx, EfiMMapDesc.stop, FRAME_SZ] at hlt ⊢
    omega
  · intro h idx hidx
    obtain ⟨desc, hdesc, husable, n, hn, rfl⟩ := mem_usableFrames.mp hidx
    have hstop := noOverflow desc hdesc
    have hle := h desc hdesc husable (by omega)
    simp only [ptrToFrameIdx, EfiMMapDesc.stop, FRAME_SZ] at hstop hle hframes
    have hframe : descFrame desc n = ptrToFrameIdx desc.paddr + n :=
      descFrame_eq (by simp only [FRAME_SZ]; omega)
    simp only [ptrToFrameIdx, FRAME_SZ] at hframe
    rw [hframe, hbytes]
    omega

/-- A map whose last descriptor is not the highest. -/
def unorderedMap : MemoryMap :=
  ⟨[⟨EfiMemoryType.conventionalMemory.code, 0x10000, 16⟩,
    ⟨EfiMemoryType.conventionalMemory.code, 0x1000, 4⟩], by decide⟩

/-- The constructor frees frame 16 of a machine that it takes to have six frames. -/
theorem unordered_frees_out_of_range :
    NoOverflow unorderedMap ∧ unorderedMap.getPageFramesNumber = 6 ∧
      ¬ ∀ idx ∈ usableFrames unorderedMap.descs,
        idx < unorderedMap.getPageFramesNumber ∧ idx / 8 < bitmapBytes unorderedMap := by
  have noOverflow : NoOverflow unorderedMap := by
    intro desc hdesc
    simp only [unorderedMap, List.mem_cons, List.not_mem_nil, or_false] at hdesc
    rcases hdesc with rfl | rfl <;> decide
  refine ⟨noOverflow, by decide +kernel, ?_⟩
  intro h
  have hlt := (h 16 (by decide +kernel)).1
  revert hlt
  decide +kernel

/-- The same two segments in ascending order. -/
theorem ascending_frees_in_range :
    let mmap : MemoryMap := ⟨unorderedMap.descs.reverse, by decide⟩
    NoOverflow mmap ∧ ∀ idx ∈ usableFrames mmap.descs,
      idx < mmap.getPageFramesNumber ∧ idx / 8 < bitmapBytes mmap := by
  intro mmap
  have hdescs : mmap.descs = unorderedMap.descs.reverse := rfl
  have noOverflow : NoOverflow mmap := by
    intro desc hdesc
    rw [hdescs, List.mem_reverse] at hdesc
    simp only [unorderedMap, List.mem_cons, List.not_mem_nil, or_false] at hdesc
    rcases hdesc with rfl | rfl <;> decide
  refine ⟨noOverflow, (freed_frames_in_range_iff noOverflow).mpr ?_⟩
  intro desc hdesc _ _
  rw [hdescs, List.mem_reverse] at hdesc
  simp only [unorderedMap, List.mem_cons, List.not_mem_nil, or_false] at hdesc
  rcases hdesc with rfl | rfl <;> decide +kernel

/-! ## Which frames are free -/

/-- The frame is one of the descriptor's pages. -/
def Covers (desc : EfiMMapDesc) (i : Nat) : Prop :=
  ptrToFrameIdx desc.paddr ≤ i ∧ i < ptrToFrameIdx desc.paddr + desc.pages

/-- No descriptor goes beyond the frames that the machine is taken to have. -/
def DescsBelow (mmap : MemoryMap) : Prop :=
  ∀ desc ∈ mmap.descs, ptrToFrameIdx desc.paddr + desc.pages ≤ mmap.getPageFramesNumber

theorem frames_of_new (built : PMem.new mmap stack self mem = .ok p) :
    p.frames = mmap.getPageFramesNumber := by
  obtain ⟨-, -, rfl, -⟩ := new_ok built
  rw [initFrames_start, frames_foldl_lockFrame, frames_foldl_freeFrame, frames_foldl_lockFrame]
  rfl

/-- Below the frames of the machine no address wraps: what is freed is what the usable descriptors
cover. -/
theorem mem_usableFrames_iff_covers (below : DescsBelow mmap) :
    i ∈ usableFrames mmap.descs ↔
      ∃ desc ∈ mmap.descs, desc.isUsableMemory = true ∧ Covers desc i := by
  have hlt := mmap.getPageFramesNumber_lt
  rw [mem_usableFrames]
  refine exists_congr fun desc => and_congr_right fun hdesc => and_congr_right fun _ => ?_
  have hbelow := below desc hdesc
  have hframe : ∀ n < desc.pages, descFrame desc n = ptrToFrameIdx desc.paddr + n := by
    intro n hn
    apply descFrame_eq
    simp only [ptrToFrameIdx, FRAME_SZ] at hbelow ⊢
    omega
  constructor
  · rintro ⟨n, hn, rfl⟩
    rw [hframe n hn]
    exact ⟨Nat.le_add_right _ _, Nat.add_lt_add_left hn _⟩
  · rintro ⟨hlow, hhigh⟩
    refine ⟨i - ptrToFrameIdx desc.paddr, by omega, ?_⟩
    rw [hframe _ (by omega)]
    omega

/-- **Which frames the constructor leaves free**: those of a usable descriptor, but frame 0, the
frame of `kernel.stack`, and the frames that it counts for the bitmap. -/
theorem constructed_free_iff (below : DescsBelow mmap)
    (built : PMem.new mmap stack self mem = .ok p) (hi : i < p.frames) :
    p.locked i = false ↔
      (∃ desc ∈ mmap.descs, desc.isUsableMemory = true ∧ Covers desc i) ∧
        i ≠ 0 ∧ i ≠ ptrToFrameIdx stack ∧
          ¬ (ptrToFrameIdx self ≤ i ∧ i < ptrToFrameIdx self + bitmapBytes mmap / FRAME_SZ) := by
  rw [frames_of_new built] at hi
  rw [← mem_usableFrames_iff_covers below, ← mem_bitmapRange]
  by_cases usable : i ∈ usableFrames mmap.descs
  · rw [← Bool.not_eq_true, locked_of_usable built usable, not_or, not_or]
    exact (and_iff_right usable).symm
  · -- a frame that is not freed stays as the first loop left it
    refine iff_of_false ?_ fun h => usable h.1
    obtain ⟨-, -, rfl, -⟩ := new_ok built
    rw [initFrames_start, locked_foldl_lockFrame, locked_foldl_freeFrame, locked_foldl_lockFrame]
    simp [usable, hi]

set_option maxRecDepth 20000 in
theorem small_new : PMem.new smallMap 0x5800 0x5008 (fun _ => 0) = .ok small := rfl

/-- Frame 3 of the small machine is free, and frame 5, which no descriptor covers, is not. -/
theorem small_free_frames :
    DescsBelow smallMap ∧ small.locked 3 = false ∧ ¬ small.locked 5 = false := by
  have below : DescsBelow smallMap := by
    intro desc hdesc
    obtain rfl := List.mem_singleton.mp hdesc
    decide
  have hframes : small.frames = 6 := by decide +kernel
  refine ⟨below, ?_, ?_⟩
  · apply (constructed_free_iff below small_new (by omega)).mpr
    exact ⟨⟨_, List.mem_cons_self, by decide, by decide, by decide⟩, by decide, by decide,
      by decide +kernel⟩
  · rw [constructed_free_iff below small_new (by omega)]
    exact fun h => h.2.2.1 rfl

/-! ## What must not be handed out -/

/-- A set of frames is protected: all of it is locked, and as long as no frame of it is freed
explicitly, no request hands one out. -/
def Protected (p : PMem) (A : Nat → Prop) : Prop :=
  (∀ i, A i → p.locked i = true) ∧
    ∀ ops q op f, Run step InRange p ops q → (∀ i, A i → .freeFrame i ∉ ops) →
      f ∈ q.handed op → ¬ A f

/-- Locked frames are protected: the second half follows from the first. -/
theorem protected_iff_locked {A : Nat → Prop} :
    Protected p A ↔ ∀ i, A i → p.locked i = true := by
  constructor
  · intro h
    exact h.1
  · intro h
    refine ⟨h, ?_⟩
    intro ops q op f run kept hf hA
    have hstill := locked_of_run run (kept f hA) (h f hA)
    rw [handed_free hf] at hstill
    cases hstill

/-- A frame that overlaps the buffer in which the bitmap's bits are. -/
def BitmapFrame (mmap : MemoryMap) (i : Nat) : Prop :=
  i * FRAME_SZ < mmap.getLargestFreeSeg.2 + bitmapBytes mmap ∧
    mmap.getLargestFreeSeg.2 < i * FRAME_SZ + FRAME_SZ

/-- The buffer is in a conventional segment, all of whose frames the constructor frees. -/
theorem usable_of_bitmapFrame (wf : ∀ desc ∈ mmap.descs, desc.WellFormed)
    (built : PMem.new mmap stack self mem = .ok p) (h : BitmapFrame mmap i) :
    i ∈ usableFrames mmap.descs := by
  obtain ⟨hroom, -, -, -⟩ := new_ok built
  obtain ⟨desc, hdesc, htype, hseg⟩ := MemoryMap.getLargestFreeSeg_mem (Nat.zero_lt_of_lt hroom)
  have hbytes := bitmapBytes_eq mmap
  obtain ⟨h1, h2⟩ := h
  rw [hseg] at hroom h1 h2
  have haligned := (wf desc hdesc).aligned
  have hstop := (wf desc hdesc).stop_le
  have hle : u64 (desc.pages * FRAME_SZ) ≤ desc.pages * FRAME_SZ := Nat.mod_le _ _
  simp only [EfiMMapDesc.stop, FRAME_SZ] at haligned hstop hle hroom h1 h2
  have husable : desc.isUsableMemory = true := by simp [EfiMMapDesc.isUsableMemory, htype]
  apply mem_usableFrames_of_span hdesc husable
  all_goals
    simp only [FRAME_SZ]
    omega

/-- **The allocator's bitmap is protected** exactly when each frame of its buffer is one that
the constructor locks for another reason: frame 0, the frame of `kernel.stack`, or one of the
whole frames counted from the frame of the member `__buf` of the `Bitmap` object. -/
theorem bitmap_protected_iff (wf : ∀ desc ∈ mmap.descs, desc.WellFormed)
    (built : PMem.new mmap stack self mem = .ok p) :
    Protected p (BitmapFrame mmap) ↔
      ∀ i, BitmapFrame mmap i → i = 0 ∨ i = ptrToFrameIdx stack ∨
        (ptrToFrameIdx self ≤ i ∧ i < ptrToFrameIdx self + bitmapBytes mmap / FRAME_SZ) := by
  rw [protected_iff_locked]
  refine forall_congr' fun i => forall_congr' fun hi => ?_
  rw [locked_of_usable built (usable_of_bitmapFrame wf built hi), mem_bitmapRange]

theorem smallMap_wellFormed : ∀ desc ∈ smallMap.descs, desc.WellFormed := by
  intro desc hdesc
  obtain rfl := List.mem_singleton.mp hdesc
  exact ⟨rfl, by decide, by decide⟩

/-- The bitmap of the small machine is in frame 1, which is free and the first frame that
`request_frame` hands out. -/
theorem small_bitmap_unprotected :
    (∀ desc ∈ smallMap.descs, desc.WellFormed) ∧
      PMem.new smallMap 0x5800 0x5008 (fun _ => 0) = .ok small ∧
      BitmapFrame smallMap 1 ∧ small.locked 1 = false ∧ 1 ∈ small.handed .requestFrame ∧
      ¬ Protected small (BitmapFrame smallMap) := by
  have hframe : BitmapFrame smallMap 1 := by
    unfold BitmapFrame
    decide +kernel
  have hfree : small.locked 1 = false := by decide +kernel
  refine ⟨smallMap_wellFormed, small_new, hframe, hfree, by decide +kernel, ?_⟩
  intro h
  have hlocked := h.1 1 hframe
  rw [hfree] at hlocked
  cases hlocked

set_option maxRecDepth 20000 in
/-- With the stack in the bitmap's one frame, the bitmap is protected. -/
theorem small_bitmap_protected : ∃ p, PMem.new smallMap 0x1800 0x17f0 (fun _ => 0) = .ok p ∧
    Protected p (BitmapFrame smallMap) := by
  have built : PMem.new smallMap 0x1800 0x17f0 (fun _ => 0) =
      .ok ((start smallMap 0x17f0 fun _ => 0).initFrames smallMap.descs 0x1800) := rfl
  refine ⟨_, built, (bitmap_protected_iff smallMap_wellFormed built).mpr ?_⟩
  intro i hi
  obtain ⟨h1, h2⟩ := hi
  have hseg : smallMap.getLargestFreeSeg.2 = 0x1000 := by decide +kernel
  have hbytes : bitmapBytes smallMap = 1 := by decide +kernel
  rw [hseg] at h1 h2
  rw [hbytes] at h1
  simp only [FRAME_SZ] at h1 h2
  right; left
  simp only [ptrToFrameIdx, FRAME_SZ]
  omega

/-- Where `_start` has its objects: `kernel.stack` is the address of the bootloader's data, in
the caller's frame; below it, down to `low`, are the locals of `_start`. -/
structure StackLayout where
  stack : Nat
  low : Nat
  bitmapBuf : Nat
  idt : Nat
  pml4 : Nat
  stack_lt : stack < 2 ^ 64
  bitmapBuf_in : low ≤ bitmapBuf ∧ bitmapBuf + 8 ≤ stack
  idt_in : low ≤ idt ∧ idt + 4096 ≤ stack
  pml4_in : low ≤ pml4 ∧ pml4 + 4096 ≤ stack
  pml4_aligned : pml4 % 4096 = 0
  apart : idt + 4096 ≤ pml4 ∨ pml4 + 4096 ≤ idt

/-- A frame that overlaps the stack in use. -/
def StackLayout.Frame (l : StackLayout) (i : Nat) : Prop :=
  i * FRAME_SZ ≤ l.stack ∧ l.low < i * FRAME_SZ + FRAME_SZ

/-- The page tables' root fills a frame, so the stack in use goes below the frame of
`kernel.stack`. -/
theorem StackLayout.low_lt (l : StackLayout) : ptrToFrameIdx l.low < ptrToFrameIdx l.stack := by
  have hin := l.pml4_in
  have haligned := l.pml4_aligned
  simp only [ptrToFrameIdx, FRAME_SZ]
  omega

/-- **The kernel's stack is protected** exactly when every frame of it below the frame of
`kernel.stack` is frame 0 or one of the whole frames counted for the bitmap from the frame of
the `Bitmap` object; and there is always such a frame. -/
theorem stack_protected_iff {l : StackLayout}
    (inUsable : ∃ desc ∈ mmap.descs, desc.isUsableMemory = true ∧ desc.paddr ≤ l.low ∧
      l.stack < desc.stop)
    (built : PMem.new mmap l.stack l.bitmapBuf mem = .ok p) :
    ptrToFrameIdx l.low < ptrToFrameIdx l.stack ∧
      (Protected p l.Frame ↔
        ∀ i, ptrToFrameIdx l.low ≤ i → i < ptrToFrameIdx l.stack → i = 0 ∨
          (ptrToFrameIdx l.bitmapBuf ≤ i ∧
            i < ptrToFrameIdx l.bitmapBuf + bitmapBytes mmap / FRAME_SZ)) := by
  refine ⟨l.low_lt, ?_⟩
  have husable : ∀ i, l.Frame i → i < ptrToFrameIdx l.stack → i ∈ usableFrames mmap.descs := by
    intro i hi hlt
    obtain ⟨desc, hdesc, husable, hlow, hstop⟩ := inUsable
    have hstack := l.stack_lt
    obtain ⟨h1, h2⟩ := hi
    simp only [EfiMMapDesc.stop, ptrToFrameIdx, FRAME_SZ] at hstop hlt h1 h2
    refine mem_usableFrames_of_span hdesc husable ?_ ?_ ?_
    · simp only [FRAME_SZ]
      omega
    · simp only [FRAME_SZ]
      omega
    · exact Nat.le_of_lt (Nat.lt_of_le_of_lt (Nat.mul_le_of_le_div _ _ _ hlt) hstack)
  rw [protected_iff_locked]
  constructor
  · intro h i hlow hlt
    have hi : l.Frame i := by
      simp only [StackLayout.Frame, ptrToFrameIdx, FRAME_SZ] at hlow hlt ⊢
      omega
    rcases (locked_of_usable built (husable i hi hlt)).mp (h i hi) with h0 | hst | hrange
    · exact .inl h0
    · omega
    · exact .inr (mem_bitmapRange.mp hrange)
  · intro h i hi
    by_cases hlt : i < ptrToFrameIdx l.stack
    · have hlow : ptrToFrameIdx l.low ≤ i := by
        simp only [StackLayout.Frame, ptrToFrameIdx, FRAME_SZ] at hi ⊢
        omega
      rcases h i hlow hlt with h0 | hrange
      · exact locked_of_pinned built (.inl h0)
      · exact locked_of_pinned built (.inr (.inr (mem_bitmapRange.mpr hrange)))
    · have hst : i = ptrToFrameIdx l.stack := by
        simp only [StackLayout.Frame, ptrToFrameIdx, FRAME_SZ] at hi hlt ⊢
        omega
      exact locked_of_pinned built (.inr (.inl hst))

/-- A stack in a usable segment of fifteen frames: the page tables' root fills frame 5, and
`kernel.stack` is in frame 8. -/
def smallLayout : StackLayout where
  stack := 0x8800
  low := 0x5000
  bitmapBuf := 0x7f00
  idt := 0x6800
  pml4 := 0x5000
  stack_lt := by decide
  bitmapBuf_in := by decide
  idt_in := by decide
  pml4_in := by decide
  pml4_aligned := by decide
  apart := by decide

/-- The segment that it is in. -/
def stackMap : MemoryMap :=
  ⟨[⟨EfiMemoryType.bootServicesData.code, 0x1000, 15⟩,
    ⟨EfiMemoryType.conventionalMemory.code, 0x10000, 1⟩], by decide⟩

theorem smallLayout_usable : ∃ desc ∈ stackMap.descs, desc.isUsableMemory = true ∧
    desc.paddr ≤ smallLayout.low ∧ smallLayout.stack < desc.stop :=
  ⟨⟨EfiMemoryType.bootServicesData.code, 0x1000, 15⟩, List.mem_cons_self, by decide⟩

set_option maxRecDepth 20000 in
/-- The frame of the page tables' root is free after construction. -/
theorem small_stack_unprotected :
    (∃ desc ∈ stackMap.descs, desc.isUsableMemory = true ∧ desc.paddr ≤ smallLayout.low ∧
      smallLayout.stack < desc.stop) ∧
    ∃ p, PMem.new stackMap smallLayout.stack smallLayout.bitmapBuf (fun _ => 0) = .ok p ∧
      smallLayout.Frame (ptrToFrameIdx smallLayout.pml4) ∧
      p.locked (ptrToFrameIdx smallLayout.pml4) = false ∧ ¬ Protected p smallLayout.Frame := by
  refine ⟨smallLayout_usable, _, rfl, by unfold StackLayout.Frame; decide +kernel,
    by decide +kernel, ?_⟩
  intro h
  have hlocked := h.1 5 (by unfold StackLayout.Frame; decide +kernel)
  revert hlocked
  decide +kernel

set_option maxRecDepth 20000 in
/-- The exact condition, read at that stack: it fails at frame 5. -/
theorem small_stack_condition : ∃ p,
    PMem.new stackMap smallLayout.stack smallLayout.bitmapBuf (fun _ => 0) = .ok p ∧
      (Protected p smallLayout.Frame ↔ False) := by
  have built : PMem.new stackMap smallLayout.stack smallLayout.bitmapBuf (fun _ => 0) =
      .ok ((start stackMap smallLayout.bitmapBuf fun _ => 0).initFrames stackMap.descs
        smallLayout.stack) := rfl
  refine ⟨_, built, (stack_protected_iff smallLayout_usable built).2.trans ⟨?_, False.elim⟩⟩
  intro h
  have hfive := h 5 (by decide +kernel) (by decide +kernel)
  revert hfive
  decide +kernel

/-! ## Runs from construction -/

/-- Every index that the constructor locks or frees is a frame of the machine. -/
structure InitInRange (mmap : MemoryMap) (stack obj : Nat) : Prop where
  usable : ∀ idx ∈ usableFrames mmap.descs, idx < mmap.getPageFramesNumber
  stack : ptrToFrameIdx stack < mmap.getPageFramesNumber
  bitmap : ∀ idx ∈ bitmapRange mmap obj, idx < mmap.getPageFramesNumber

theorem run_lockFrames {l : List Nat} (hl : ∀ idx ∈ l, idx < p.frames) :
    Run step InRange p (l.map .lockFrame) (l.foldl lockFrame p) := by
  induction l generalizing p with
  | nil => exact .nil p
  | cons idx rest ih =>
    refine .cons (hl idx List.mem_cons_self) rfl (ih fun j hj => ?_)
    rw [frames_lockFrame]
    exact hl j (List.mem_cons_of_mem _ hj)

theorem run_freeFrames {l : List Nat} (hl : ∀ idx ∈ l, idx < p.frames) :
    Run step InRange p (l.map .freeFrame) (l.foldl freeFrame p) := by
  induction l generalizing p with
  | nil => exact .nil p
  | cons idx rest ih =>
    refine .cons (hl idx List.mem_cons_self) rfl (ih fun j hj => ?_)
    rw [frames_freeFrame]
    exact hl j (List.mem_cons_of_mem _ hj)

/-- The constructor is a run of `lock_frame` and `free_frame` calls from its first line on. -/
theorem run_initOps (range : InitInRange mmap stack self)
    (built : PMem.new mmap stack self mem = .ok p) :
    Run step InRange (start mmap self mem) (initOps mmap stack self) p := by
  obtain ⟨-, hpos, rfl, -⟩ := new_ok built
  rw [initFrames_start]
  have hstart : (start mmap self mem).frames = mmap.getPageFramesNumber := rfl
  refine ((run_lockFrames ?_).append (run_freeFrames ?_)).append (run_lockFrames ?_)
  · intro idx hidx
    exact List.mem_range.mp hidx
  · intro idx hidx
    rw [frames_foldl_lockFrame, hstart]
    exact range.usable idx hidx
  · intro idx hidx
    rw [frames_foldl_freeFrame, frames_foldl_lockFrame, hstart]
    rcases List.mem_append.mp hidx with hidx | hidx
    · simp only [List.mem_cons, List.not_mem_nil, or_false] at hidx
      rcases hidx with rfl | rfl
      · exact hpos
      · exact range.stack
    · exact range.bitmap idx hidx

/-- The members are initialised to a clear bitmap and matching counters. -/
theorem counted_start : Counted (start mmap self mem) := by
  have hlt := mmap.getPageFramesNumber_lt
  have hclear : ∀ i < (start mmap self mem).frames, (start mmap self mem).locked i = false :=
    fun i hi => Bitmap.get_new (by omega) hi
  refine ⟨Nat.lt_trans hlt (by decide), ?_, ?_⟩
  · symm
    show Nat.count _ _ = 0
    rw [Nat.count_iff_forall_not]
    intro i hi
    simp [hclear i hi]
  · symm
    show Nat.count _ _ = (start mmap self mem).frames
    rw [Nat.count_iff_forall]
    exact hclear

/-- **The counters are exact in every state**, those inside the constructor included: for a
map and a placement whose frames are all in range, after any calls on frames of the machine.
The last clause says that no decrement wraps. -/
theorem counters_exact (range : InitInRange mmap stack self)
    (built : PMem.new mmap stack self mem = .ok p) {ops : List Op}
    (run : Run step InRange (start mmap self mem) ops q ∨ Run step InRange p ops q) :
    q.lockedFrames = Nat.count (fun i => q.locked i = true) q.frames ∧
      q.freeFrames = Nat.count (fun i => q.locked i = false) q.frames ∧
      q.freeFrames + q.lockedFrames = q.frames ∧
      ∀ i < q.frames,
        (q.locked i = false → (q.lockFrame i).freeFrames + 1 = q.freeFrames) ∧
        (q.locked i = true → (q.freeFrame i).lockedFrames + 1 = q.lockedFrames) := by
  have counted : Counted q := by
    rcases run with run | run
    · exact counted_start.of_run run
    · exact counted_start.of_run ((run_initOps range built).append run)
  refine ⟨counted.locked_eq, counted.free_eq, counted.sum, fun i hi => ⟨?_, ?_⟩⟩
  · intro hbit
    exact (counted.lockFrame_counters hi hbit).1
  · intro hbit
    exact (counted.freeFrame_counters hi hbit).1

theorem small_inRange : InitInRange smallMap 0x5800 0x5008 :=
  ⟨by decide +kernel, by decide +kernel, by decide +kernel⟩

set_option maxRecDepth 20000 in
/-- The small machine after a request and a double free. -/
theorem small_counters_exact : ∃ q,
    Run step InRange small [.requestFrame, .freeFrame 1, .freeFrame 1] q ∧
      q.lockedFrames = Nat.count (fun i => q.locked i = true) q.frames ∧
      q.freeFrames + q.lockedFrames = q.frames := by
  have run : ∃ q, Run step InRange small [.requestFrame, .freeFrame 1, .freeFrame 1] q := by
    refine ⟨_, .cons trivial rfl (.cons ?_ rfl (.cons ?_ rfl (.nil _)))⟩
    · show 1 < _
      decide +kernel
    · show 1 < _
      decide +kernel
  obtain ⟨q, run⟩ := run
  obtain ⟨hlocked, -, hsum, -⟩ := counters_exact small_inRange small_new (.inr run)
  exact ⟨q, run, hlocked, hsum⟩

/-- The allocator serves requests: no free frame is below the hint, and while a frame is free
`request_frame` answers with a free frame that is not the null one. -/
def Serves (p : PMem) : Prop :=
  HintSound p ∧ (0 < p.freeFrames →
    ∃ i r, p.requestFrame = .ok (idxToFramePtr i, r) ∧ idxToFramePtr i ≠ 0 ∧ i < p.frames ∧
      p.locked i = false)

/-- Frame 0 stays locked in the hands of clients that leave it alone. -/
theorem locked_zero_of_run {ops : List Op} (run : Run step NonNull p ops q)
    (h : p.locked 0 = true) : q.locked 0 = true := by
  refine run.invariant (P := fun p => p.locked 0 = true) ?_ h
  intro p op t hp adm ok
  have hfrees : 0 ∉ op.frees := by
    cases op with
    | freeFrame idx =>
      intro hin
      have hidx := List.mem_singleton.mp hin
      have hpos := adm.1
      omega
    | _ => exact List.not_mem_nil
  rw [step_locked ok, hp]
  simp [hfrees]

theorem frames_of_run {Adm : PMem → Op → Prop} {ops : List Op} (run : Run step Adm p ops q) :
    q.frames = p.frames :=
  run.invariant (P := fun t => t.frames = p.frames)
    (fun _ _ _ h _ ok => (step_frames ok).trans h) rfl

theorem freeFrames_lt_of_new (built : PMem.new mmap stack self mem = .ok p) :
    p.freeFrames < 2 ^ 64 := by
  obtain ⟨-, -, rfl, -⟩ := new_ok built
  have lock : ∀ (l : List Nat) (p : PMem), p.freeFrames < 2 ^ 64 →
      (l.foldl lockFrame p).freeFrames < 2 ^ 64 := by
    refine fun l p h => List.foldlRecOn (motive := fun p : PMem => p.freeFrames < 2 ^ 64) l _ h ?_
    intro p h i _
    unfold lockFrame
    split
    · exact Nat.mod_lt _ (by decide)
    · exact h
  have free : ∀ (l : List Nat) (p : PMem), p.freeFrames < 2 ^ 64 →
      (l.foldl freeFrame p).freeFrames < 2 ^ 64 := by
    refine fun l p h => List.foldlRecOn (motive := fun p : PMem => p.freeFrames < 2 ^ 64) l _ h ?_
    intro p h i _
    unfold freeFrame
    split
    · exact u64_lt _
    · exact h
  rw [initFrames_start]
  exact lock _ _ (free _ _ (lock _ _ (Nat.lt_trans mmap.getPageFramesNumber_lt (by decide))))

/-- Where every index is a frame of the machine, the constructor leaves an exact counter. -/
theorem exact_of_inRange (range : InitInRange mmap stack self)
    (built : PMem.new mmap stack self mem = .ok p) :
    p.freeFrames = Nat.count (fun i => p.locked i = false) p.frames :=
  (counted_start.of_run (run_initOps range built)).free_eq

/-- The hint stays sound in a run that never frees a locked frame below it. -/
theorem hint_of_run (built : PMem.new mmap stack self mem = .ok p) {ops : List Op}
    (run : Run step (fun p op => NonNull p op ∧ KeepsHint p op) p ops q) : HintSound q := by
  refine run.invariant (fun _ _ _ h adm ok => h.step adm.2 ok) ?_
  obtain ⟨-, -, rfl, -⟩ := new_ok built
  intro i hi
  rw [initFrames_start, foldl_keeps PMem.lastFreeIdx (fun _ _ => lastFreeIdx_lockFrame),
    foldl_keeps PMem.lastFreeIdx (fun _ _ => lastFreeIdx_freeFrame),
    foldl_keeps PMem.lastFreeIdx (fun _ _ => lastFreeIdx_lockFrame)] at hi
  exact absurd hi (Nat.not_lt_zero i)

/-- With a sound hint, the allocator serves exactly where a counter that says so is right that some
frame is free. -/
theorem serves_iff_free (hint : HintSound p) (hfits : p.frames ≤ 2 ^ 52)
    (hzero : p.locked 0 = true) :
    Serves p ↔ (0 < p.freeFrames → 0 < p.freeCount) := by
  rw [freeCount_pos_iff]
  constructor
  · rintro ⟨-, serves⟩ hfree
    obtain ⟨i, -, -, -, hi, hbit⟩ := serves hfree
    exact ⟨i, hi, hbit⟩
  · intro h
    exact ⟨hint, fun hfree => requestFrame_of_free hint hfits hzero (h hfree) hfree⟩

/-- **When the allocator serves requests.** For any memory map and placement and any calls that
leave frame 0 alone: the hint is sound and `request_frame` finds a frame while the counter is not
zero, in every state of the run, if and only if each `free_frame` of the run named a frame at or
above the hint, or one that was free already; and the counter was exact when the constructor ended,
or some frame was free in every state. -/
theorem serves_iff (built : PMem.new mmap stack self mem = .ok p) {ops : List Op}
    (run : Run step NonNull p ops q) :
    (∀ pre post r, ops = pre ++ post → Run step NonNull p pre r → Serves r) ↔
      Run step (fun p op => NonNull p op ∧ KeepsHint p op) p ops q ∧
        (p.freeFrames = Nat.count (fun i => p.locked i = false) p.frames ∨
          ∀ pre post r, ops = pre ++ post → Run step NonNull p pre r →
            ∃ i < r.frames, r.locked i = false) := by
  have hfits : p.frames ≤ 2 ^ 52 := by
    rw [frames_of_new built]
    exact Nat.le_of_lt mmap.getPageFramesNumber_lt
  have hzero := (new_ok built).2.2.2
  -- the counter is off by the same number in every state of the run
  obtain ⟨d, drift⟩ := Drift.exists_of_fits (p := p) (by omega) (freeFrames_lt_of_new built)
  have drifts : ∀ {pre r}, Run step NonNull p pre r → Drift d r :=
    fun before => drift.of_run (before.mono fun _ _ h => h.inRange)
  constructor
  · intro h
    refine ⟨keepsHint_of_sound (fun pre post r hsplit before => (h pre post r hsplit before).1) run,
      or_iff_not_imp_left.mpr fun inexact pre post r hsplit before => ?_⟩
    have serves := h pre post r hsplit before
    by_contra hnone
    rw [← freeCount_pos_iff, Nat.not_lt, Nat.le_zero] at hnone
    have hempty : r.freeFrames = 0 := by
      by_contra hpos
      obtain ⟨i, -, -, -, hi, hbit⟩ := serves.2 (Nat.pos_of_ne_zero hpos)
      exact absurd (freeCount_pos_iff.mpr ⟨i, hi, hbit⟩) (by omega)
    -- no frame is free and the counter is zero, so that it was exact from the start
    have hend := (drifts before).free_eq
    rw [hempty, hnone, Nat.zero_add] at hend
    have hstart := drift.free_eq
    have hcount := p.freeCount_le
    refine inexact (hstart.trans ?_)
    show u64 (p.freeCount + d) = p.freeCount
    unfold u64 at hend ⊢
    omega
  · rintro ⟨kept, exact_or⟩ pre post r hsplit before
    rw [hsplit] at kept
    obtain ⟨r', kept', -⟩ := kept.append_inv
    obtain rfl := before.unique kept'
    have hframes := frames_of_run before
    refine (serves_iff_free (hint_of_run built kept') (by omega)
      (locked_zero_of_run before hzero)).mpr fun hfree => ?_
    rcases exact_or with exact | some
    · have hzero : Drift 0 p := by
        have hlt : p.freeCount + 0 < 2 ^ 64 := Nat.lt_of_le_of_lt p.freeCount_le (by omega)
        exact ⟨by omega, exact.trans (u64_of_lt hlt).symm⟩
      have hend := (hzero.of_run (before.mono fun _ _ h => h.inRange)).free_eq
      rw [hend, Nat.add_zero] at hfree
      exact Nat.lt_of_lt_of_le hfree (Nat.mod_le _ _)
    · exact freeCount_pos_iff.mpr (some pre post r hsplit before)

set_option maxRecDepth 20000 in
/-- All four frames are handed out and frame 1 is given back: a frame is free, below the
hint, and `request_frame` answers null. -/
theorem small_stops_serving : ∃ q,
    Run step NonNull small
      [.requestFrame, .requestFrame, .requestFrame, .requestFrame, .freeFrame 1] q ∧
      q.freeFrames = 1 ∧ q.lastFreeIdx = 4 ∧ q.locked 1 = false ∧
      (∃ r, q.requestFrame = .ok (0, r)) ∧ ¬ Serves q := by
  have run : ∃ q, Run step NonNull small
      [.requestFrame, .requestFrame, .requestFrame, .requestFrame, .freeFrame 1] q ∧
      q.freeFrames = 1 ∧ q.lastFreeIdx = 4 ∧ q.locked 1 = false ∧
      ∃ r, q.requestFrame = .ok (0, r) := by
    refine ⟨_, .cons trivial rfl (.cons trivial rfl (.cons trivial rfl (.cons trivial rfl
      (.cons ?_ rfl (.nil _))))), by decide +kernel, by decide +kernel, by decide +kernel,
      ⟨_, rfl⟩⟩
    show 0 < 1 ∧ 1 < _
    decide +kernel
  obtain ⟨q, run, hfree, hlast, hbit, hnull⟩ := run
  refine ⟨q, run, hfree, hlast, hbit, hnull, ?_⟩
  intro serves
  have hlocked := serves.1 1 (by omega)
  rw [hbit] at hlocked
  cases hlocked

/-- The small machine with a stack far above its frames. -/
def farStack : PMem := (start smallMap 0xff008 fun _ => 0).initFrames smallMap.descs 0x100000

set_option maxRecDepth 20000 in
/-- The small machine keeps serving when the frame at the hint is given back. With the stack far
above its frames, the counter is one too small, and it serves as long as a frame is free. -/
theorem small_keeps_serving :
    (∃ q, Run step NonNull small [.requestFrame, .freeFrame 1] q ∧ Serves q) ∧
    ¬ InitInRange smallMap 0x100000 0xff008 ∧ farStack.freeFrames = 3 ∧ farStack.freeCount = 4 ∧
      ∃ q, Run step NonNull farStack [.requestFrame] q ∧ Serves q := by
  refine ⟨?_, ?_, by decide +kernel, by decide +kernel, ?_⟩
  · have run : ∃ q, Run step (fun p op => NonNull p op ∧ KeepsHint p op) small
        [.requestFrame, .freeFrame 1] q := by
      refine ⟨_, .cons ⟨trivial, trivial⟩ rfl (.cons ⟨?_, ?_⟩ rfl (.nil _))⟩
      · show 0 < 1 ∧ 1 < _
        decide +kernel
      · left
        decide +kernel
    obtain ⟨q, run⟩ := run
    have nonNull : Run step NonNull small [.requestFrame, .freeFrame 1] q :=
      run.mono fun _ _ h => h.1
    exact ⟨q, nonNull, (serves_iff small_new nonNull).mpr
      ⟨run, .inl (exact_of_inRange small_inRange small_new)⟩ _ [] q (List.append_nil _).symm
      nonNull⟩
  · intro range
    exact absurd range.stack (by decide +kernel)
  · have built : PMem.new smallMap 0x100000 0xff008 (fun _ => 0) = .ok farStack := rfl
    obtain ⟨q, ok, hq⟩ : ∃ q, step farStack .requestFrame = .ok q ∧ q.locked 2 = false := by
      refine ⟨_, rfl, ?_⟩
      decide +kernel
    have run : Run step NonNull farStack [.requestFrame] q := .cons trivial ok (.nil q)
    refine ⟨q, run, (serves_iff built run).mpr ⟨.cons ⟨trivial, trivial⟩ ok (.nil q), .inr ?_⟩ _ [] q
      rfl run⟩
    -- frame 2 is free before the request and after it
    intro pre post r hsplit before
    have hframes : r.frames = 6 := (frames_of_run before).trans (by decide +kernel)
    refine ⟨2, by omega, ?_⟩
    rcases List.append_eq_singleton_iff.mp hsplit.symm with ⟨rfl, -⟩ | ⟨rfl, -⟩
    · cases before
      decide +kernel
    · rw [before.unique run]
      exact hq

end PrintOS.PMem
