import PrintOS.Laws.Memory.HeapFrame
import PrintOS.Laws.Memory.HeapProgress
import PrintOS.Laws.Memory.PMemRequest
import PrintOS.Laws.Memory.PhysMemRun
import PrintOS.Memory.KernelHeap

/-!
# The heap keeps to its frames

The laws of `Heap` are about a memory of its own and a kernel whose page ranges are fresh. In the
one memory both are theorems: the pages that the heap obtains are frames that the allocator has
locked (`Backed`), so that no bit of the bitmap and no entry of a table is in them, and no request
answers with one of them again. An operation is the kernel's part, which leaves the heap's pages,
and then an operation of `Heap` on the memory that this part leaves (`malloc_split`), which writes
to the heap's pages only.
-/

namespace PrintOS.KernelHeap

open ByteMemory (Mem Byte lastWrite lastWrite_append lastWrite_cons lastWrite_eq_none
  writeAt_eq_none)
open Heap (Obtained InPayload Holds Sound Touches allocatePages findFreeBlock rangeEnd)
open Interval (Apart)
open PhysMem (Safe Rel Client Adm lastMapping fields)
open Paging (Tables)

variable {PML4 frame n pages ptr x : Nat} {m m' : PhysMem} {obtained : List (Nat × Nat)}
variable {ops : List PhysMem.Op} {h h' : KernelHeap}

/-! ## The kernel's part -/

/-- The tables of the one memory are sound in a memory of their own. -/
def Tabled (PML4 : Nat) (m : PhysMem) : Prop :=
  ∃ s, Rel PML4 m s ∧ ∃ paths, Tables PML4 s.mem s.taken paths

/-- The page of the address is mapped to the frame of the same number, present and writable. -/
def SelfMapped (PML4 : Nat) (m : PhysMem) (x : Nat) : Prop :=
  (Paging.lookup PML4 m.mem x).map fields = some (1, 1, x / 2 ^ 12)

/-- The pages that the heap obtained: there is no byte in two of the ranges, and each is in a frame
that a client of the kernel has, and mapped to itself. -/
structure Backed (PML4 : Nat) (m : PhysMem) (obtained : List (Nat × Nat)) : Prop where
  safe : Safe PML4 m
  tabled : Tabled PML4 m
  client : ∀ x, Obtained obtained x → Client PML4 m (x / FRAME_SZ)
  mapped : ∀ x, Obtained obtained x → SelfMapped PML4 m x
  fresh : Heap.Fresh obtained
  nonempty : ∀ r ∈ obtained, 0 < r.2

theorem lookup_of_run (safe : Safe PML4 m) (tabled : Tabled PML4 m)
    (run : Run (PhysMem.step PML4) (Adm PML4) m ops m') (x : Nat) :
    (Paging.lookup PML4 m'.mem x).map fields =
      ((lastMapping x ops).map fun paddr => (1, 1, paddr / 2 ^ 12)).or
        ((Paging.lookup PML4 m.mem x).map fields) := by
  obtain ⟨s, rel, paths, sound⟩ := tabled
  obtain ⟨s', rel', ⟨paths', sound'⟩, hlast⟩ :=
    PhysMem.lookup_of_run safe rel ⟨paths, sound⟩ run x
  rw [rel'.lookup_eq sound', hlast, rel.lookup_eq sound]

/-- What the page is mapped to is what one of the calls mapped it to. -/
theorem maps_of_lastMapping {paddr : Nat} (h : lastMapping x ops = some paddr) :
    ∃ op ∈ ops, op.maps x = some paddr := by
  induction ops with
  | nil => cases h
  | cons op ops ih =>
    rw [lastMapping, Option.or_eq_some_iff] at h
    rcases h with h | ⟨-, h⟩
    · obtain ⟨later, hlater, hmaps⟩ := ih h
      exact ⟨later, List.mem_cons_of_mem _ hlater, hmaps⟩
    · exact ⟨op, List.mem_cons_self, h⟩

theorem lastMapping_of_maps {op : PhysMem.Op} {paddr : Nat} (hop : op ∈ ops)
    (hmaps : op.maps x = some paddr) : ∃ last, lastMapping x ops = some last := by
  induction ops with
  | nil => cases hop
  | cons first ops ih =>
    rw [lastMapping]
    rcases List.mem_cons.mp hop with rfl | hop
    · rw [hmaps]
      cases lastMapping x ops with
      | none => exact ⟨paddr, rfl⟩
      | some last => exact ⟨last, rfl⟩
    · obtain ⟨last, hlast⟩ := ih hop
      exact ⟨last, by rw [hlast, Option.some_or]⟩

theorem lastMapping_eq_none (other : ∀ op ∈ ops, op.maps x = none) : lastMapping x ops = none := by
  refine Option.eq_none_iff_forall_ne_some.mpr fun paddr h => ?_
  obtain ⟨op, hop, hmaps⟩ := maps_of_lastMapping h
  rw [other op hop] at hmaps
  cases hmaps

/-- **The heap's pages stay what they are** in any run of the kernel that frees none of their frames
and maps none of them anew. -/
theorem Backed.run (backed : Backed PML4 m obtained)
    (run : Run (PhysMem.step PML4) (Adm PML4) m ops m')
    (kept : ∀ x, Obtained obtained x → .pmem (.freeFrame (x / FRAME_SZ)) ∉ ops)
    (others : ∀ x, Obtained obtained x → lastMapping x ops = none) :
    Backed PML4 m' obtained ∧
      ∀ x, Obtained obtained x → m'.mem x = (lastWrite PhysMem.Op.writes x ops).getD (m.mem x) := by
  obtain ⟨s, rel, sound⟩ := backed.tabled
  obtain ⟨s', -, safe', rel', sound'⟩ := PhysMem.run_refines backed.safe rel sound run
  have hclient : ∀ x, Obtained obtained x → Client PML4 m' (x / FRAME_SZ) ∧
      ∀ y, y / FRAME_SZ = x / FRAME_SZ → m'.mem y = (lastWrite PhysMem.Op.writes y ops).getD (m.mem y) :=
    fun x hx => PhysMem.client_of_run backed.safe rel sound run (backed.client x hx) (kept x hx)
  refine ⟨⟨safe', ⟨s', rel', sound'⟩, fun x hx => (hclient x hx).1, fun x hx => ?_,
    backed.fresh, backed.nonempty⟩, fun x hx => (hclient x hx).2 x rfl⟩
  rw [SelfMapped, lookup_of_run backed.safe backed.tabled run, others x hx, Option.map_none,
    Option.none_or]
  exact backed.mapped x hx

/-- The bitmap and the tables are outside of the heap's pages. -/
theorem Backed.outside (backed : Backed PML4 m obtained)
    (hx : PhysMem.BitmapByte m.pmem x ∨ PhysMem.InTable PML4 m.taken x) : ¬ Obtained obtained x :=
  fun hin => (backed.client x hin).other (.inr ⟨x, rfl, hx⟩)

/-- What is written to the heap's pages changes neither. -/
theorem Backed.setMem {mem : Mem} (backed : Backed PML4 m obtained)
    (hmem : ∀ x, ¬ Obtained obtained x → mem x = m.mem x) :
    Backed PML4 (m.setMem mem) obtained := by
  have hbitmap : ∀ x, PhysMem.BitmapByte m.pmem x → mem x = m.mem x :=
    fun x hx => hmem x (backed.outside (.inl hx))
  obtain ⟨s, rel, paths, sound⟩ := backed.tabled
  have rel' : Rel PML4 (m.setMem mem) s := rel.setMem hbitmap fun x hx =>
    (rel.tables x hx).trans (hmem x (backed.outside (.inr hx))).symm
  refine ⟨backed.safe.setMem hbitmap, ⟨s, rel', paths, sound⟩,
    fun x hx => (backed.client x hx).setMem hbitmap, fun x hx => ?_, backed.fresh,
    backed.nonempty⟩
  rw [SelfMapped, rel'.lookup_eq sound, ← rel.lookup_eq sound]
  exact backed.mapped x hx

/-! ## New pages -/

/-- The calls of the loop that maps the new pages. -/
def mapPages (frame pages : Nat) : List PhysMem.Op :=
  (List.range pages).map fun i =>
    .allocatePage (u64 (frame + i * PAGE_SZ)) (u64 (frame + i * PAGE_SZ))

/-- The pages are below 4 GiB. -/
structure LowPages (frame pages first : Nat) : Prop where
  address : frame = first * FRAME_SZ
  low : first + pages ≤ 2 ^ 20

section LowPages

variable {first i : Nat} {op : PhysMem.Op}

theorem LowPages.page (low : LowPages frame pages first) (hi : i < pages) :
    u64 (frame + i * PAGE_SZ) = (first + i) * PAGE_SZ := by
  have hlow := low.low
  rw [low.address, u64_of_lt (by simp only [PAGE_SZ, FRAME_SZ]; omega), Nat.add_mul, PAGE_SZ]

/-- A byte of the pages is on one of them. -/
theorem LowPages.index (low : LowPages frame pages first) (hlo : frame ≤ x)
    (hhi : x < rangeEnd (frame, pages)) : ∃ i < pages, first + i = x / FRAME_SZ := by
  have haddress := low.address
  simp only [rangeEnd, PAGE_SZ, FRAME_SZ] at hhi haddress ⊢
  exact ⟨x / 4096 - first, by omega, by omega⟩

/-- The page number of an address below 4 GiB. -/
theorem pageNumber_of_lt (h : x / PAGE_SZ < 2 ^ 20) : Paging.pageNumber x = x / PAGE_SZ := by
  simp only [Paging.pageNumber, PAGE_SZ, FRAME_SZ] at h ⊢
  omega

/-- Each of the calls maps one of the pages to itself. -/
theorem LowPages.maps (low : LowPages frame pages first) (hop : op ∈ mapPages frame pages)
    (hx : x / PAGE_SZ < 2 ^ 20) : ∃ i < pages,
      op = .allocatePage ((first + i) * PAGE_SZ) ((first + i) * PAGE_SZ) ∧
        op.maps x = if first + i = x / PAGE_SZ then some ((first + i) * PAGE_SZ) else none := by
  obtain ⟨i, hi, rfl⟩ := List.mem_map.mp hop
  have hi' := List.mem_range.mp hi
  have hlow := low.low
  have hdiv : (first + i) * PAGE_SZ / PAGE_SZ = first + i := Nat.mul_div_cancel _ (by decide)
  refine ⟨i, hi', by rw [low.page hi'], ?_⟩
  rw [PhysMem.Op.maps, low.page hi', pageNumber_of_lt hx,
    pageNumber_of_lt (by rw [hdiv]; omega), hdiv]

theorem LowPages.others (low : LowPages frame pages first) (hx : x / PAGE_SZ < 2 ^ 20)
    (other : ∀ i < pages, first + i ≠ x / PAGE_SZ) :
    lastMapping x (mapPages frame pages) = none := by
  refine lastMapping_eq_none fun op hop => ?_
  obtain ⟨i, hi, -, hmaps⟩ := low.maps hop hx
  rw [hmaps, if_neg (other i hi)]

theorem LowPages.itself (low : LowPages frame pages first) (hi : i < pages)
    (hx : first + i = x / PAGE_SZ) :
    lastMapping x (mapPages frame pages) = some ((first + i) * PAGE_SZ) := by
  have hlow := low.low
  have hx' : x / PAGE_SZ < 2 ^ 20 := by omega
  have hop : PhysMem.Op.allocatePage (u64 (frame + i * PAGE_SZ)) (u64 (frame + i * PAGE_SZ)) ∈
      mapPages frame pages := List.mem_map.mpr ⟨i, List.mem_range.mpr hi, rfl⟩
  obtain ⟨j, hj, heq, hmaps⟩ := low.maps hop hx'
  rw [low.page hi] at heq
  have hij : (first + i) * PAGE_SZ = (first + j) * PAGE_SZ := (PhysMem.Op.allocatePage.inj heq).1
  have hsame := Nat.eq_of_mul_eq_mul_right (by decide) hij
  rw [if_pos (hsame.symm.trans hx)] at hmaps
  obtain ⟨last, hlast⟩ := lastMapping_of_maps hop hmaps
  obtain ⟨op, hop', hmaps'⟩ := maps_of_lastMapping hlast
  obtain ⟨k, -, -, hmaps''⟩ := low.maps hop' hx'
  rw [hmaps'] at hmaps''
  split at hmaps''
  · next hk => rw [hlast, hmaps'', hk, hx]
  · cases hmaps''

theorem lastWrite_mapPages : lastWrite PhysMem.Op.writes x (mapPages frame pages) = none := by
  refine lastWrite_eq_none fun op hop => ?_
  obtain ⟨i, -, rfl⟩ := List.mem_map.mp hop
  rfl

theorem LowPages.run (low : LowPages frame pages first)
    (ok : allocatePages (PhysMem.machine PML4) frame pages m = .ok m') :
    Run (PhysMem.step PML4) (Adm PML4) m (mapPages frame pages) m' := by
  have hlow : ∀ i ∈ List.range pages, u64 (frame + i * PAGE_SZ) < 2 ^ 44 := by
    intro i hi
    have hi' := List.mem_range.mp hi
    have hend := low.low
    rw [low.page hi']
    simp only [PAGE_SZ, FRAME_SZ]
    omega
  rw [allocatePages] at ok
  rw [mapPages]
  generalize List.range pages = is at ok hlow ⊢
  induction is generalizing m with
  | nil =>
    cases ok
    exact .nil _
  | cons i is ih =>
    rw [List.foldlM_cons] at ok
    obtain ⟨u, hpage, hrest⟩ := Except.bind_eq_ok.mp ok
    exact .cons (hlow i List.mem_cons_self) hpage
      (ih hrest fun i hi => hlow i (List.mem_cons_of_mem _ hi))

end LowPages

theorem obtained_append {r : Nat × Nat} :
    Obtained (obtained ++ [r]) x ↔ Obtained obtained x ∨ r.1 ≤ x ∧ x < rangeEnd r := by
  simp only [Obtained, List.mem_append, List.mem_singleton, rangeEnd]
  constructor
  · rintro ⟨r', hr | rfl, hx⟩
    · exact .inl ⟨r', hr, hx⟩
    · exact .inr hx
  · rintro (⟨r', hr, hx⟩ | hx)
    · exact ⟨r', .inl hr, hx⟩
    · exact ⟨r, .inr rfl, hx⟩

/-- Page ranges without a common byte are apart. -/
theorem fresh_append {r : Nat × Nat} (fresh : Heap.Fresh obtained)
    (nonempty : ∀ r ∈ obtained, 0 < r.2) (pos : 0 < r.2) (fits : rangeEnd r ≤ 2 ^ 64)
    (apart : ∀ x, Obtained obtained x → ¬ (r.1 ≤ x ∧ x < rangeEnd r)) :
    Heap.Fresh (obtained ++ [r]) := by
  constructor
  · refine List.pairwise_append.mpr ⟨fresh.apart, List.pairwise_singleton _ _, ?_⟩
    intro q hq r' hr'
    obtain rfl := List.mem_singleton.mp hr'
    have hq' := nonempty q hq
    by_contra hover
    have hmeet : q.1 < rangeEnd r' ∧ r'.1 < rangeEnd q := by
      rw [Apart, Interval.Before, Interval.Before, not_or, Nat.not_le, Nat.not_le] at hover
      exact hover.symm
    have hstops : q.1 < rangeEnd q ∧ r'.1 < rangeEnd r' := by
      simp only [rangeEnd, PAGE_SZ, FRAME_SZ]
      omega
    exact apart (max q.1 r'.1) ⟨q, hq, Nat.le_max_left _ _, Nat.max_lt.mpr ⟨hstops.1, hmeet.2⟩⟩
      ⟨Nat.le_max_right _ _, Nat.max_lt.mpr ⟨hmeet.1, hstops.2⟩⟩
  · intro q hq
    rcases List.mem_append.mp hq with hq | hq
    · exact fresh.fits q hq
    · rw [List.mem_singleton.mp hq]
      exact fits

/-- **The heap obtains new pages**: frames that a call of the allocator hands out, each then mapped
to itself. The pages that it has stay what they are. -/
theorem Backed.extend {op : PMem.Op} {p : PMem} {first : Nat} (backed : Backed PML4 m obtained)
    (pos : 0 < pages) (adm : Adm PML4 m (.pmem op)) (ok : m.pmem.step op = .ok p)
    (handed : ∀ i < pages, first + i ∈ m.pmem.handed op) (address : frame = first * FRAME_SZ)
    (mapped : allocatePages (PhysMem.machine PML4) frame pages { m with pmem := p } = .ok m') :
    Backed PML4 m' (obtained ++ [(frame, pages)]) ∧
      ∀ x, Obtained obtained x → m'.mem x = m.mem x := by
  have hsmall := backed.safe.small
  have hfree : ∀ i < pages, m.pmem.locked (first + i) = false ∧ first + i < m.pmem.frames :=
    fun i hi => PMem.handed_spec (handed i hi)
  have hlast := (hfree (pages - 1) (by omega)).2
  have low : LowPages frame pages first := ⟨address, by omega⟩
  have hstep : PhysMem.step PML4 m (.pmem op) = .ok { m with pmem := p } := by
    rw [PhysMem.step, ok]
    rfl
  have hpages := low.run mapped
  have hnotFreed : ∀ idx, op ≠ .freeFrame idx := by
    rintro idx rfl
    exact List.not_mem_nil (handed 0 pos)
  -- the new frames were free before, and those of the heap were not
  have hother : ∀ x, Obtained obtained x → ∀ i < pages, first + i ≠ x / FRAME_SZ := by
    intro x hx i hi heq
    have hlocked := (backed.client x hx).locked
    rw [← heq, (hfree i hi).1] at hlocked
    cases hlocked
  have hkept : ∀ x, PhysMem.Op.pmem (.freeFrame (x / FRAME_SZ)) ∉
      .pmem op :: mapPages frame pages := by
    intro x hmem
    rcases List.mem_cons.mp hmem with heq | hmem
    · exact hnotFreed _ (PhysMem.Op.pmem.inj heq).symm
    · obtain ⟨i, -, heq⟩ := List.mem_map.mp hmem
      cases heq
  have hothers : ∀ x, Obtained obtained x →
      lastMapping x (.pmem op :: mapPages frame pages) = none := by
    intro x hx
    have hinside : x / PAGE_SZ < 2 ^ 20 := lt_of_lt_of_le (backed.client x hx).inside hsmall
    rw [lastMapping, low.others hinside (hother x hx)]
    rfl
  obtain ⟨hbacked, hmem⟩ :=
    backed.run (.cons adm hstep hpages) (fun x _ => hkept x) hothers
  refine ⟨⟨hbacked.safe, hbacked.tabled, fun x hx => ?_, fun x hx => ?_, ?_, ?_⟩, fun x hx => ?_⟩
  · rcases obtained_append.mp hx with hx | ⟨hlo, hhi⟩
    · exact hbacked.client x hx
    · obtain ⟨i, hi, hindex⟩ := low.index hlo hhi
      obtain ⟨s, rel, sound⟩ := backed.tabled
      obtain ⟨s₁, -, safe₁, rel₁, -, sound₁⟩ :=
        PhysMem.step_refines backed.safe rel sound adm hstep
      have hclient := PhysMem.client_of_handed backed.safe adm ok (handed i hi)
      have hnotFreed' := fun hmem => hkept x (List.mem_cons_of_mem (PhysMem.Op.pmem op) hmem)
      exact (PhysMem.client_of_run safe₁ rel₁ sound₁ hpages (hindex ▸ hclient) hnotFreed').1
  · rcases obtained_append.mp hx with hx | ⟨hlo, hhi⟩
    · exact hbacked.mapped x hx
    · obtain ⟨i, hi, hindex⟩ := low.index hlo hhi
      have hpage : x / FRAME_SZ * PAGE_SZ / 2 ^ 12 = x / 2 ^ 12 := by
        simp only [PAGE_SZ, FRAME_SZ]
        omega
      rw [SelfMapped, lookup_of_run backed.safe backed.tabled (.cons adm hstep hpages),
        lastMapping, low.itself hi hindex, hindex, Option.some_or, Option.map_some, Option.some_or,
        hpage]
  · refine fresh_append backed.fresh backed.nonempty pos ?_ fun x hx hin => ?_
    · simp only [rangeEnd, address, PAGE_SZ, FRAME_SZ]
      have := low.low
      omega
    · obtain ⟨i, hi, hindex⟩ := low.index hin.1 hin.2
      exact hother x hx i hi hindex
  · intro r hr
    rcases List.mem_append.mp hr with hr | hr
    · exact backed.nonempty r hr
    · rw [List.mem_singleton.mp hr]
      exact pos
  · rw [hmem x hx, lastWrite_cons, lastWrite_mapPages]
    rfl

/-- A request that is answered whole hands out as many frames as it was asked for. -/
theorem handed_of_whole {p : PMem} (small : m.pmem.frames ≤ 2 ^ 20) (pos : 0 < pages)
    (whole : AnsweredWhole m.pmem pages) (ok : m.pmem.requestFrames pages = .ok (frame, p)) :
    ∃ first, 0 < first ∧ frame = first * FRAME_SZ ∧
      ∀ i < pages, first + i ∈ m.pmem.handed (.requestFrames pages) := by
  obtain ⟨first, last, hfind, hframe, -⟩ := PMem.requestFrames_ok ok
  obtain ⟨-, hfirst, -⟩ := (PMem.findFrames_eq_ok_iff pos).mp hfind
  have hlast := whole first last hfind
  have hhanded : ∀ i < pages, first + i ∈ m.pmem.handed (.requestFrames pages) := by
    intro i hi
    simp only [PMem.handed, hfind, PMem.frameRange, List.mem_range'_1]
    omega
  have hinside := (PMem.handed_spec (hhanded 0 pos)).2
  refine ⟨first, hfirst, hframe.trans (u64_of_lt ?_), hhanded⟩
  simp only [FRAME_SZ]
  omega

/-! ## The heap's part -/

/-- A kernel that answers with this frame. -/
def granting (frame : Nat) : Kernel Unit where
  requestFrame _ := .ok (frame, ())
  requestFrames _ _ := .ok (frame, ())
  allocatePage _ _ _ := .ok ()

/-- The heap in a memory. -/
def view (h : KernelHeap) (mem : Mem) : Heap.State Unit := ⟨h.blocks, mem, (), h.obtained⟩

theorem allocatePages_granting (frame page pages : Nat) :
    allocatePages (granting frame) page pages () = .ok () := by
  rw [allocatePages]
  induction List.range pages with
  | nil => rfl
  | cons i is ih =>
    rw [List.foldlM_cons]
    exact ih

/-- Growing the heap is the kernel's part, and then `Heap.grow` on the memory that it leaves. -/
theorem grow_eq (n : Nat) (h : KernelHeap) : grow PML4 n h = (do
    let (frame, kernel) ← (PhysMem.machine PML4).requestFrames (n / PAGE_SZ + 1) h.kernel
    let kernel ← allocatePages (PhysMem.machine PML4) frame (n / PAGE_SZ + 1) kernel
    let grown ← Heap.grow (granting frame) n (view h kernel.mem)
    return ⟨grown.blocks, kernel.setMem grown.mem, grown.obtained⟩) := by
  rw [grow]
  refine bind_congr fun ⟨frame, granted⟩ => bind_congr fun kernel => ?_
  have hmapped := allocatePages_granting frame frame (n / PAGE_SZ + 1)
  simp only [granting] at hmapped
  simp only [Heap.grow, granting, view, Except.ok_bind, hmapped, bind_assoc, pure_bind]

/-- The list is laid out in the heap's pages. -/
theorem holds_congr {mem mem' : Mem} {P : Heap.Pool} (holds : Holds (view h mem) P)
    (inv : P.Invariant) (hmem : ∀ x, Obtained h.obtained x → mem' x = mem x) :
    Holds (view h mem') P := by
  refine ⟨holds.root, holds.laid.congr fun b hb => ?_, holds.frames⟩
  refine Heap.header_congr fun x hlo hhi => hmem x ?_
  by_contra hx
  have hout := Heap.outsideHeaders_of_not_obtained holds inv hx b hb
  omega

/-- Where a free block is large enough, `malloc` is `Heap.malloc` on the memory of the machine. -/
theorem malloc_of_found (found : findFreeBlock h.mem h.blocks n ≠ .ok 0) :
    malloc PML4 h n = (do
      let (ptr, heap) ← Heap.malloc (granting 0) (view h h.mem) n
      return (ptr, ⟨heap.blocks, h.kernel.setMem heap.mem, heap.obtained⟩)) := by
  simp only [malloc, Heap.malloc, findOrGrow, Heap.findOrGrow, view, bind_assoc]
  refine bind_congr fun _ => ?_
  cases hfind : findFreeBlock h.mem h.blocks n with
  | error fault => rfl
  | ok block =>
    have hne : block ≠ 0 := fun h => found (hfind.trans (congrArg Except.ok h))
    simp only [Except.ok_bind, if_neg hne, pure_bind]

/-- Where there is none, it is the kernel's part, and then `Heap.malloc` on the memory that it
leaves. -/
theorem malloc_of_full {granted : PhysMem} (full : findFreeBlock h.mem h.blocks n = .ok 0)
    (request : (PhysMem.machine PML4).requestFrames (n / PAGE_SZ + 1) h.kernel =
      .ok (frame, granted))
    (mapped : allocatePages (PhysMem.machine PML4) frame (n / PAGE_SZ + 1) granted = .ok m)
    (full' : findFreeBlock m.mem h.blocks n = .ok 0) :
    malloc PML4 h n = (do
      let (ptr, heap) ← Heap.malloc (granting frame) (view h m.mem) n
      return (ptr, ⟨heap.blocks, m.setMem heap.mem, heap.obtained⟩)) := by
  simp only [malloc, Heap.malloc, findOrGrow, Heap.findOrGrow, full, grow_eq, request, mapped,
    Except.ok_bind, if_pos, bind_assoc, pure_bind]
  refine bind_congr fun _ => ?_
  have hfull : findFreeBlock (view h m.mem).mem (view h m.mem).blocks n = .ok 0 := full'
  simp only [hfull, Except.ok_bind, if_pos, bind_assoc, pure_bind]
  rfl

/-- The pages that a `malloc` obtains are those that the kernel answers with. -/
theorem obtained_of_full {σ : Type} {k : Kernel σ} {s s' : Heap.State σ} {granted : σ}
    (full : findFreeBlock s.mem s.blocks n = .ok 0)
    (request : k.requestFrames (n / PAGE_SZ + 1) s.kernel = .ok (frame, granted))
    (ok : Heap.malloc k s n = .ok (ptr, s')) :
    s'.obtained = s.obtained ++ [(frame, n / PAGE_SZ + 1)] := by
  obtain ⟨_, grown, mem, -, hgrow, rfl⟩ := Heap.grow_of_malloc full ok
  obtain ⟨_, _, _, _, _, _, hrequest, -, -, -, -, -, rfl⟩ := Heap.grow_ok hgrow
  obtain ⟨rfl, -⟩ := Prod.mk.inj (Except.ok.inj (hrequest.symm.trans request))
  rfl

/-- A `malloc` that grows the heap has had its frames and its mappings. -/
theorem granted_of_malloc (full : findFreeBlock h.mem h.blocks n = .ok 0)
    (ok : malloc PML4 h n = .ok (ptr, h')) : ∃ frame granted m,
      (PhysMem.machine PML4).requestFrames (n / PAGE_SZ + 1) h.kernel = .ok (frame, granted) ∧
        allocatePages (PhysMem.machine PML4) frame (n / PAGE_SZ + 1) granted = .ok m := by
  obtain ⟨_, -, ok⟩ := Except.bind_eq_ok.mp ok
  obtain ⟨⟨block, h₁⟩, hfind, -⟩ := Except.bind_eq_ok.mp ok
  obtain ⟨found, hfound, hfind⟩ := Except.bind_eq_ok.mp hfind
  obtain rfl := Except.ok.inj (full.symm.trans hfound)
  obtain ⟨grown, hgrow, -⟩ := Except.bind_eq_ok.mp ((if_pos rfl).symm.trans hfind)
  rw [grow_eq] at hgrow
  obtain ⟨⟨frame, granted⟩, hrequest, hgrow⟩ := Except.bind_eq_ok.mp hgrow
  obtain ⟨m, hmapped, -⟩ := Except.bind_eq_ok.mp hgrow
  exact ⟨frame, granted, m, hrequest, hmapped⟩

/-- Where the kernel has what the heap asks it for, the heap's pages are backed afterwards. -/
theorem backed_of_grow {granted : PhysMem} (backed : Backed PML4 m obtained)
    (whole : AnsweredWhole m.pmem (n / PAGE_SZ + 1))
    (request : (PhysMem.machine PML4).requestFrames (n / PAGE_SZ + 1) m = .ok (frame, granted))
    (mapped : allocatePages (PhysMem.machine PML4) frame (n / PAGE_SZ + 1) granted = .ok m') :
    Backed PML4 m' (obtained ++ [(frame, n / PAGE_SZ + 1)]) ∧
      ∀ x, Obtained obtained x → m'.mem x = m.mem x := by
  obtain ⟨⟨frame', p⟩, hrequest, heq⟩ := Except.bind_eq_ok.mp request
  obtain ⟨rfl, rfl⟩ := Prod.mk.inj (Except.ok.inj heq)
  obtain ⟨first, -, haddress, hhanded⟩ :=
    handed_of_whole backed.safe.small (Nat.succ_pos _) whole hrequest
  have hstep : m.pmem.step (.requestFrames (n / PAGE_SZ + 1)) = .ok p := by
    rw [PMem.step, hrequest]
    rfl
  have adm : Adm PML4 m (.pmem (.requestFrames (n / PAGE_SZ + 1))) := trivial
  exact backed.extend (Nat.succ_pos _) adm hstep hhanded haddress mapped

/-- **An operation of the heap in the one memory**, taken apart: the kernel's part leaves what is in
the heap's pages, and the rest is `Heap.malloc` on the memory that it leaves. -/
theorem malloc_split {P : Heap.Pool} (backed : Backed PML4 h.kernel h.obtained)
    (holds : Holds (view h h.mem) P) (inv : P.Invariant)
    (whole : findFreeBlock h.mem h.blocks n = .ok 0 →
      AnsweredWhole h.kernel.pmem (n / PAGE_SZ + 1))
    (ok : malloc PML4 h n = .ok (ptr, h')) :
    ∃ frame m, Backed PML4 m h'.obtained ∧ h'.kernel = m.setMem h'.mem ∧
      (∀ x, Obtained h.obtained x → m.mem x = h.mem x) ∧
      Heap.malloc (granting frame) (view h m.mem) n = .ok (ptr, view h' h'.mem) := by
  by_cases full : findFreeBlock h.mem h.blocks n = .ok 0
  · obtain ⟨frame, granted, m, hrequest, hmapped⟩ := granted_of_malloc full ok
    obtain ⟨hbacked, hmem⟩ := backed_of_grow backed (whole full) hrequest hmapped
    have full' : findFreeBlock m.mem h.blocks n = .ok 0 :=
      ((holds_congr holds inv hmem).findFreeBlock_eq_zero inv n).mpr
        ((holds.findFreeBlock_eq_zero inv n).mp full)
    rw [malloc_of_full full hrequest hmapped full'] at ok
    obtain ⟨⟨ptr', heap⟩, hheap, ok⟩ := Except.bind_eq_ok.mp ok
    obtain ⟨rfl, rfl⟩ := Prod.mk.inj (Except.ok.inj ok)
    have hobtained : heap.obtained = h.obtained ++ [(frame, n / PAGE_SZ + 1)] :=
      obtained_of_full (s := view h m.mem) full' rfl hheap
    refine ⟨frame, m, ?_, rfl, hmem, hheap⟩
    show Backed PML4 m heap.obtained
    rw [hobtained]
    exact hbacked
  · rw [malloc_of_found full] at ok
    obtain ⟨⟨ptr', heap⟩, hheap, ok⟩ := Except.bind_eq_ok.mp ok
    obtain ⟨rfl, rfl⟩ := Prod.mk.inj (Except.ok.inj ok)
    obtain ⟨_, hpos, -⟩ := Except.bind_eq_ok.mp hheap
    obtain ⟨_, _, _, mem, -, -, -, htakes, -⟩ :=
      @Heap.malloc_takes _ (granting 0) _ _ _ holds inv (kassert_eq_ok.mp hpos) full
    obtain ⟨-, rfl⟩ := Prod.mk.inj (Except.ok.inj (htakes.symm.trans hheap))
    exact ⟨0, h.kernel, backed, rfl, fun _ _ => rfl, hheap⟩

/-! ## One operation -/

section Steps

variable {s t : Session} {op : Op}

/-- The session of a heap with a memory of its own. -/
def apart (s : Session) : Heap.Session Unit := ⟨view s.heap s.heap.mem, s.live⟩

/-- The heap's pages are backed, and its list is sound. -/
structure Joint (PML4 : Nat) (s : Session) : Prop where
  backed : Backed PML4 s.heap.kernel s.heap.obtained
  sound : Sound (apart s)

theorem sound_congr {mem : Mem} {live : List (Nat × Nat)}
    (sound : Sound ⟨view h mem, live⟩) {mem' : Mem}
    (hmem : ∀ x, Obtained h.obtained x → mem' x = mem x) : Sound ⟨view h mem', live⟩ := by
  obtain ⟨P, rep, inv⟩ := sound
  exact ⟨P, ⟨holds_congr rep.toHolds inv hmem, rep.live⟩, inv⟩

/-- What an operation is to the heap on its own. -/
def Op.own : Op → List Heap.Op
  | .malloc bytes => [.malloc bytes]
  | .free ptr => [.free ptr]
  | .kernel (.write addr v) => [.write addr v]
  | .kernel _ => []

/-- The operation as one of `Heap`: some kernel serves it, from a memory with the same bytes in the
heap's pages. -/
def Serves (s : Session) (op : Op) (t : Session) : Prop :=
  ∃ k mem, (∀ x, Obtained s.heap.obtained x → mem x = s.heap.mem x) ∧
    Run (Heap.step k) Heap.Allowed ⟨view s.heap mem, s.live⟩ op.own (apart t)

theorem serves_malloc {heap : KernelHeap} (joint : Joint PML4 s)
    (allowed : Allowed PML4 s (.malloc n)) (ok : malloc PML4 s.heap n = .ok (ptr, heap)) :
    Backed PML4 heap.kernel heap.obtained ∧ Serves s (.malloc n) ⟨heap, (ptr, n) :: s.live⟩ := by
  obtain ⟨P, rep, inv⟩ := joint.sound
  obtain ⟨pos, hlt, whole⟩ := allowed
  obtain ⟨frame, m, hbacked, hkernel, hmem, hheap⟩ :=
    malloc_split joint.backed rep.toHolds inv whole ok
  have holds := holds_congr rep.toHolds inv hmem
  obtain ⟨Q, hstep, holds', -⟩ := Heap.malloc_refines holds inv hheap hbacked.fresh
  have inv' := hstep.invariant (holds'.frames ▸ hbacked.fresh) inv
  have htouches := Heap.malloc_touches holds inv hheap hbacked.fresh holds'
  refine ⟨?_, granting frame, m.mem, hmem, .cons ⟨pos, hlt⟩ ?_ (.nil _)⟩
  · rw [hkernel]
    exact hbacked.setMem fun x hx =>
      htouches x (Heap.outsideHeaders_of_not_obtained holds' inv' hx)
  · rw [Heap.step, hheap]
    rfl

/-- `free` is `Heap.free` on the memory of the machine. -/
theorem free_eq (h : KernelHeap) (ptr : Nat) : free h ptr = (do
    let freed ← Heap.free (view h h.mem) ptr
    return ⟨freed.blocks, h.kernel.setMem freed.mem, freed.obtained⟩) := by
  rw [free, Heap.free]
  split
  · rfl
  · simp only [view, bind_assoc, pure_bind]

theorem serves_free {heap : KernelHeap} (joint : Joint PML4 s)
    (allowed : Allowed PML4 s (.free ptr)) (ok : free s.heap ptr = .ok heap) :
    Backed PML4 heap.kernel heap.obtained ∧
      Serves s (.free ptr) ⟨heap, s.live.filter (·.1 ≠ ptr)⟩ := by
  obtain ⟨P, rep, inv⟩ := joint.sound
  obtain ⟨bytes, live⟩ := allowed
  rw [free_eq] at ok
  obtain ⟨freed, hfree, ok⟩ := Except.bind_eq_ok.mp ok
  obtain rfl := Except.ok.inj ok
  have hobtained : freed.obtained = s.heap.obtained := Heap.obtained_of_free hfree
  have hlive : s.live = P.live := rep.live
  have htouches := Heap.free_touches rep.toHolds inv (hlive ▸ live) hfree
  refine ⟨?_, granting 0, s.heap.mem, fun _ _ => rfl, .cons ⟨bytes, live⟩ ?_ (.nil _)⟩
  · rw [hobtained]
    exact joint.backed.setMem fun x hx =>
      htouches x (Heap.outsideHeaders_of_not_obtained rep.toHolds inv hx)
  · rw [Heap.step, hfree]
    rfl

/-- What is live is in the heap's pages. -/
theorem Joint.inPages (joint : Joint PML4 s) (hx : InPayload s.live x) :
    Obtained s.heap.obtained x := by
  obtain ⟨P, rep, inv⟩ := joint.sound
  have hlive : s.live = P.live := rep.live
  have hframes : s.heap.obtained = P.frames := rep.frames
  obtain ⟨b, hb, hlo, hhi⟩ := Heap.inPayload_block inv.own (hlive ▸ hx)
  rw [hframes]
  exact (inv.cover x).mp ⟨b, hb, le_trans (Nat.le_add_right _ _) hlo, hhi⟩

/-- The calls of the other clients leave the heap's pages to it. -/
theorem LeavesHeap.backed {op : PhysMem.Op} {kernel : PhysMem} (leaves : LeavesHeap s op)
    (backed : Backed PML4 s.heap.kernel s.heap.obtained) (adm : Adm PML4 s.heap.kernel op)
    (ok : s.heap.kernel.step PML4 op = .ok kernel) : Backed PML4 kernel s.heap.obtained ∧
      ∀ x, Obtained s.heap.obtained x → kernel.mem x = s.heap.mem x := by
  have hkept : ∀ x, Obtained s.heap.obtained x → .pmem (.freeFrame (x / FRAME_SZ)) ∉ [op] := by
    intro x hx hmem
    rw [← List.mem_singleton.mp hmem] at leaves
    exact leaves x hx rfl
  have hothers : ∀ x, Obtained s.heap.obtained x → lastMapping x [op] = none := by
    intro x hx
    refine lastMapping_eq_none fun op' hop => ?_
    rw [List.mem_singleton.mp hop]
    cases op with
    | allocatePage vaddr paddr =>
      refine if_neg fun heq => leaves x hx ?_
      rw [Paging.pageIndexer_eq, Paging.pageIndexer_eq]
      simp only [Paging.pageNumber] at heq
      congr 1 <;> omega
    | _ => rfl
  have hwrites : ∀ x, Obtained s.heap.obtained x →
      lastWrite PhysMem.Op.writes x [op] = none := by
    intro x hx
    refine lastWrite_eq_none fun op' hop => writeAt_eq_none fun v heq => ?_
    rw [List.mem_singleton.mp hop] at heq
    cases op with
    | write addr v =>
      cases heq
      exact leaves hx
    | _ => cases heq
  obtain ⟨hbacked, hmem⟩ := backed.run (.cons adm ok (.nil _)) hkept hothers
  refine ⟨hbacked, fun x hx => ?_⟩
  rw [hmem x hx, hwrites x hx]
  rfl

theorem serves_kernel {op : PhysMem.Op} {kernel : PhysMem} (joint : Joint PML4 s)
    (allowed : Allowed PML4 s (.kernel op)) (ok : s.heap.kernel.step PML4 op = .ok kernel) :
    Backed PML4 kernel s.heap.obtained ∧
      Serves s (.kernel op) ⟨{ s.heap with kernel := kernel }, s.live⟩ := by
  rcases allowed with ⟨addr, v, rfl, hlive⟩ | ⟨adm, leaves⟩
  · obtain rfl := Except.ok.inj ok
    refine ⟨joint.backed.setMem fun x hx => Mem.write_of_ne ?_,
      granting 0, s.heap.mem, fun _ _ => rfl, .cons (.inl hlive) rfl (.nil _)⟩
    rintro rfl
    exact hx (joint.inPages hlive)
  · obtain ⟨hbacked, hmem⟩ := leaves.backed joint.backed adm ok
    refine ⟨hbacked, ?_⟩
    cases op with
    | write addr v =>
      obtain rfl := Except.ok.inj ok
      exact ⟨granting 0, s.heap.mem, fun _ _ => rfl, .cons (.inr leaves) rfl (.nil _)⟩
    | _ => exact ⟨granting 0, kernel.mem, hmem, .nil _⟩

/-- **The heap in the machine's memory refines the heap with a memory of its own**, and its pages
stay backed. -/
theorem step_serves (joint : Joint PML4 s) (allowed : Allowed PML4 s op)
    (ok : step PML4 s op = .ok t) :
    Backed PML4 t.heap.kernel t.heap.obtained ∧ Serves s op t := by
  cases op with
  | malloc bytes =>
    obtain ⟨⟨ptr, heap⟩, hmalloc, ok⟩ := Except.bind_eq_ok.mp ok
    obtain rfl := Except.ok.inj ok
    exact serves_malloc joint allowed hmalloc
  | free ptr =>
    obtain ⟨heap, hfree, ok⟩ := Except.bind_eq_ok.mp ok
    obtain rfl := Except.ok.inj ok
    exact serves_free joint allowed hfree
  | kernel op =>
    obtain ⟨kernel, hstep, ok⟩ := Except.bind_eq_ok.mp ok
    obtain rfl := Except.ok.inj ok
    exact serves_kernel joint allowed hstep

theorem Serves.sound (serves : Serves s op t) (sound : Sound (apart s))
    (fresh : Heap.Fresh t.heap.obtained) : Sound (apart t) := by
  obtain ⟨k, mem, hmem, run⟩ := serves
  refine run.invariant_within (P := Sound) (G := fun u => Heap.Fresh u.heap.obtained)
    (fun _ _ _ ok => Heap.fresh_of_step ok) ?_ fresh (sound_congr sound hmem)
  exact fun u op v sound allowed ok hfresh => Heap.sound_of_step sound allowed ok hfresh

theorem joint_of_step (joint : Joint PML4 s) (allowed : Allowed PML4 s op)
    (ok : step PML4 s op = .ok t) : Joint PML4 t := by
  obtain ⟨hbacked, serves⟩ := step_serves joint allowed ok
  exact ⟨hbacked, serves.sound joint.sound hbacked.fresh⟩

theorem joint_of_run {ops : List Op} (joint : Joint PML4 s)
    (run : Run (step PML4) (Allowed PML4) s ops t) : Joint PML4 t :=
  run.invariant (fun _ _ _ joint allowed ok => joint_of_step joint allowed ok) joint

theorem backed_nil (safe : Safe PML4 m) (tabled : Tabled PML4 m) : Backed PML4 m [] where
  safe := safe
  tabled := tabled
  client _ hx := absurd hx fun ⟨_, hr, _⟩ => List.not_mem_nil hr
  mapped _ hx := absurd hx fun ⟨_, hr, _⟩ => List.not_mem_nil hr
  fresh := ⟨.nil, fun _ hr => absurd hr List.not_mem_nil⟩
  nonempty _ hr := absurd hr List.not_mem_nil

/-- A frame that is handed out and mapped to itself. -/
theorem backed_of_frame {granted : PhysMem} (safe : Safe PML4 m) (tabled : Tabled PML4 m)
    (request : (PhysMem.machine PML4).requestFrame m = .ok (frame, granted)) (nonnull : frame ≠ 0)
    (mapped : granted.allocatePage PML4 frame frame = .ok m') : Backed PML4 m' [(frame, 1)] := by
  obtain ⟨⟨frame', p⟩, hrequest, heq⟩ := Except.bind_eq_ok.mp request
  obtain ⟨rfl, rfl⟩ := Prod.mk.inj (Except.ok.inj heq)
  obtain ⟨hpos, ⟨-, hnull, -⟩ | ⟨idx, hsome, hframe, -⟩⟩ := PMem.requestFrame_ok hrequest
  · exact absurd hnull nonnull
  have hhanded : ∀ i < 1, idx + i ∈ m.pmem.handed .requestFrame := by
    intro i hi
    obtain rfl : i = 0 := by omega
    simp only [PMem.handed, if_pos hpos, hsome]
    exact List.mem_singleton.mpr rfl
  have hsmall := safe.small
  have hinside := (PMem.handed_spec (hhanded 0 Nat.one_pos)).2
  have haddress : frame' = idx * FRAME_SZ := by
    refine hframe.trans (u64_of_lt ?_)
    simp only [FRAME_SZ]
    omega
  have hpage : u64 (frame' + 0 * PAGE_SZ) = frame' := by
    rw [haddress, Nat.zero_mul, Nat.add_zero]
    refine u64_of_lt ?_
    simp only [FRAME_SZ]
    omega
  have hpages : allocatePages (PhysMem.machine PML4) frame' 1 { m with pmem := p } = .ok m' := by
    show ((PhysMem.machine PML4).allocatePage (u64 (frame' + 0 * PAGE_SZ))
      (u64 (frame' + 0 * PAGE_SZ)) { m with pmem := p } >>= fun kernel => pure kernel) = .ok m'
    rw [hpage, bind_pure]
    exact mapped
  have hstep : m.pmem.step .requestFrame = .ok p := by
    rw [PMem.step, hrequest]
    rfl
  have adm : Adm PML4 m (.pmem .requestFrame) := trivial
  exact ((backed_nil safe tabled).extend Nat.one_pos adm hstep hhanded haddress hpages).1

/-- The memory with the header of the first block. -/
def firstHeader (m : Mem) (frame : Nat) : Mem :=
  Heap.setBytes (Heap.setPrev (Heap.setNext (Heap.setIsFree m frame true) frame 0) frame 0) frame
    (PAGE_SZ - BLOCK_HEADER_SZ)

/-- `Heap::Heap`, in a kernel that keeps its own memory. -/
theorem joint_of_new {kernel : PhysMem} (safe : Safe PML4 kernel) (tabled : Tabled PML4 kernel)
    (made : new PML4 kernel = .ok h) : Joint PML4 ⟨h, []⟩ := by
  obtain ⟨⟨frame, granted⟩, hrequest, made⟩ := Except.bind_eq_ok.mp made
  obtain ⟨_, hnull, made⟩ := Except.bind_eq_ok.mp made
  obtain ⟨m, hmapped, made⟩ := Except.bind_eq_ok.mp made
  obtain rfl := Except.ok.inj made
  have nonnull := kassert_eq_ok.mp hnull
  have hbacked := backed_of_frame safe tabled hrequest nonnull hmapped
  have hnew : Heap.new (granting frame) () m.mem =
      .ok ⟨frame, firstHeader m.mem frame, (), [(frame, 1)]⟩ := by
    simp only [Heap.new, granting, Except.ok_bind, kassert_of nonnull]
    rfl
  obtain ⟨P, rep, inv, -⟩ := Heap.new_holds hnew hbacked.fresh
  refine ⟨hbacked.setMem fun x hx => ?_, P, rep, inv⟩
  have hout := Heap.outsideHeaders_of_not_obtained rep.toHolds inv hx
  have hblock : Heap.BlockAt P.blocks frame := by
    have hroot : frame = Linked.first Heap.Block.addr 0 P.blocks := rep.root
    cases hblocks : P.blocks with
    | nil =>
      rw [hblocks] at hroot
      exact absurd hroot nonnull
    | cons b bs =>
      rw [hblocks] at hroot
      exact ⟨b, List.mem_cons_self, hroot.symm⟩
  have htouches : Touches P.blocks m.mem (firstHeader m.mem frame) :=
    .setBytes (.setPrev (.setNext (.setIsFree (.refl _ _) hblock) hblock) hblock) hblock
  exact htouches x hout

/-! ## A small machine -/

/-- A `malloc` that finds a block needs no frames. -/
theorem allowed_malloc {PML4 n : Nat} {s : Session} (pos : 0 < n) (small : n < 2 ^ 64)
    (found : findFreeBlock s.heap.mem s.heap.blocks n ≠ .ok 0) : Allowed PML4 s (.malloc n) :=
  ⟨pos, small, fun full => absurd full found⟩

/-- One that grows the heap is answered whole where the frames that are found are as many as it asks
for. -/
theorem allowed_grow {PML4 n first last : Nat} {s : Session} (pos : 0 < n) (small : n < 2 ^ 64)
    (found : s.heap.kernel.pmem.findFrames (n / PAGE_SZ + 1) = .ok (first, last))
    (whole : last + 1 = first + (n / PAGE_SZ + 1)) : Allowed PML4 s (.malloc n) := by
  refine ⟨pos, small, fun _ first' last' h => ?_⟩
  obtain ⟨rfl, rfl⟩ := Prod.mk.inj (Except.ok.inj (found.symm.trans h))
  exact whole

/-- A heap in the small machine: an allocation; then a write of its owner, an allocation that grows
the heap by two frames, another client's request, a page for it, and the second allocation freed. -/
theorem roomy_heap : ∃ h s t, new 0xe000 PhysMem.roomy = .ok h ∧
    Run (step 0xe000) (Allowed 0xe000) ⟨h, []⟩ [.malloc 10] s ∧
    Run (step 0xe000) (Allowed 0xe000) s
      [.kernel (.write 0x2020 0x2a#8), .malloc 4096, .kernel (.pmem .requestFrame),
        .kernel (.allocatePage 0x99999999999 0x8000), .free 0x6020] t ∧
    s.live = [(0x2020, 10)] ∧ t.live = [(0x2020, 10)] ∧
      t.heap.obtained = [(0x2000, 1), (0x6000, 2)] := by
  obtain ⟨⟨h, s₁, s₂, s₃, s₄, s₅, s₆⟩, ok, facts⟩ : ∃ r, (do
      let h ← new 0xe000 PhysMem.roomy
      let s₁ ← step 0xe000 ⟨h, []⟩ (.malloc 10)
      let s₂ ← step 0xe000 s₁ (.kernel (.write 0x2020 0x2a#8))
      let s₃ ← step 0xe000 s₂ (.malloc 4096)
      let s₄ ← step 0xe000 s₃ (.kernel (.pmem .requestFrame))
      let s₅ ← step 0xe000 s₄ (.kernel (.allocatePage 0x99999999999 0x8000))
      let s₆ ← step 0xe000 s₅ (.free 0x6020)
      return (h, s₁, s₂, s₃, s₄, s₅, s₆)) = .ok r ∧
        ((findFreeBlock r.1.mem r.1.blocks 10).toOption,
          (r.2.2.1.heap.kernel.pmem.findFrames 2).toOption,
          [r.2.1.live, r.2.2.2.2.1.heap.obtained, r.2.2.2.2.2.1.live, r.2.2.2.2.2.2.live,
            r.2.2.2.2.2.2.heap.obtained]) =
        (some 0x2000, some (6, 7), [[(0x2020, 10)], [(0x2000, 1), (0x6000, 2)],
          [(0x6020, 4096), (0x2020, 10)], [(0x2020, 10)], [(0x2000, 1), (0x6000, 2)]]) := by
    apply Except.ok_of_toOption_map
    simp only [step, new, PhysMem.machine, PhysMem.step, PhysMem.allocatePage,
      PhysMem.getOrCreate, Paging.memset_eq]
    decide +kernel
  simp only [Prod.mk.injEq, List.cons.injEq, and_true] at facts
  obtain ⟨hfound, hframes, hlive, hobtained, hlive', hlast, hobtained'⟩ := facts
  obtain ⟨_, hnew, ok⟩ := Except.bind_eq_ok.mp ok
  obtain ⟨_, hmalloc, ok⟩ := Except.bind_eq_ok.mp ok
  obtain ⟨_, hwrite, ok⟩ := Except.bind_eq_ok.mp ok
  obtain ⟨_, hgrow, ok⟩ := Except.bind_eq_ok.mp ok
  obtain ⟨_, hrequest, ok⟩ := Except.bind_eq_ok.mp ok
  obtain ⟨_, hpage, ok⟩ := Except.bind_eq_ok.mp ok
  obtain ⟨_, hfree, ok⟩ := Except.bind_eq_ok.mp ok
  obtain ⟨rfl, rfl, rfl, rfl, rfl, rfl, rfl⟩ : _ ∧ _ ∧ _ ∧ _ ∧ _ ∧ _ ∧ _ := by
    simpa only [Prod.mk.injEq] using Except.ok.inj ok
  refine ⟨_, _, _, hnew, .cons (allowed_malloc (by decide) (by decide) ?_) hmalloc (.nil _), ?_,
    hlive, hlast, hobtained'⟩
  · intro full
    rw [full] at hfound
    exact absurd hfound (by decide)
  refine .cons (.inl ⟨_, _, rfl, ?_⟩) hwrite (.cons (allowed_grow (by decide) (by decide)
    (Except.eq_ok_of_toOption hframes) (by decide)) hgrow (.cons (.inr ⟨trivial, trivial⟩) hrequest
    (.cons (.inr ⟨?_, ?_⟩) hpage (.cons ?_ hfree (.nil _)))))
  · rw [hlive]
    decide
  · show 0x8000 < 2 ^ 44
    decide
  · rintro x ⟨r, hr, hlo, hhi⟩ heq
    rw [hobtained] at hr
    simp only [List.mem_cons, List.not_mem_nil, or_false] at hr
    rw [Paging.pageIndexer_eq, Paging.pageIndexer_eq, PageIndexer.mk.injEq] at heq
    simp only [PAGE_SZ, FRAME_SZ] at hlo hhi heq
    rcases hr with rfl | rfl <;> simp only at hlo hhi <;> omega
  · exact ⟨4096, by rw [hlive']; decide⟩

/-! ## Runs -/

variable {kernel : PhysMem} {pre : List PhysMem.Op} {before after : List Op}

theorem joint_reached (begun : PhysMem.Begun PML4 m)
    (start : Run (PhysMem.step PML4) (Adm PML4) m pre kernel) (made : new PML4 kernel = .ok h)
    (run : Run (step PML4) (Allowed PML4) ⟨h, []⟩ before t) : Joint PML4 t := by
  obtain ⟨s, -, safe, rel, sound⟩ :=
    PhysMem.run_refines begun.safe (.refl PML4 m) begun.sound start
  exact joint_of_run (joint_of_new safe ⟨s, rel, sound⟩ made) run

/-- **The heap in the machine's memory.** Once the kernel has begun, after any calls and writes that
its clients and those of the heap may make: the list of the heap is well formed, no two live
allocations overlap, and each is in pages that the heap obtained. Each byte of these pages is in a
frame that is locked, is not the kernel's own, and that no request hands out again; and its page is
mapped to that frame. -/
theorem heap_in_machine (begun : PhysMem.Begun PML4 m)
    (start : Run (PhysMem.step PML4) (Adm PML4) m pre kernel) (made : new PML4 kernel = .ok h)
    (run : Run (step PML4) (Allowed PML4) ⟨h, []⟩ before t) :
    (∃ bs, Heap.WellFormed (view t.heap t.heap.mem) bs) ∧
      (t.live.Pairwise fun a b => a.1 + a.2 ≤ b.1 ∨ b.1 + b.2 ≤ a.1) ∧
      (∀ x, InPayload t.live x → Obtained t.heap.obtained x) ∧
      ∀ x, Obtained t.heap.obtained x →
        t.heap.kernel.pmem.locked (x / FRAME_SZ) = true ∧
          ¬ PhysMem.Kept PML4 t.heap.kernel (x / FRAME_SZ) ∧
          (∀ op, x / FRAME_SZ ∉ t.heap.kernel.pmem.handed op) ∧
          SelfMapped PML4 t.heap.kernel x := by
  have joint := joint_reached begun start made run
  obtain ⟨P, rep, inv⟩ := joint.sound
  have hlive : t.live = P.live := rep.live
  refine ⟨⟨_, rep.wellFormed inv⟩, hlive ▸ Heap.live_disjoint inv.own inv.apart,
    fun x hx => joint.inPages hx, fun x hx => ?_⟩
  have client := joint.backed.client x hx
  refine ⟨client.locked, client.other, fun op hmem => ?_, joint.backed.mapped x hx⟩
  have hlocked := client.locked
  rw [PMem.handed_free hmem] at hlocked
  cases hlocked

/-- In the small machine, where the heap has grown by frames 6 and 7: they are locked and mapped to
themselves, and the request of the other client was not answered with one of them. -/
theorem roomy_heap_inMachine : ∃ h s, new 0xe000 PhysMem.roomy = .ok h ∧
    Run (step 0xe000) (Allowed 0xe000) ⟨h, []⟩
      [.malloc 10, .kernel (.write 0x2020 0x2a#8), .malloc 4096, .kernel (.pmem .requestFrame),
        .kernel (.allocatePage 0x99999999999 0x8000), .free 0x6020] s ∧
      s.live = [(0x2020, 10)] ∧ s.heap.kernel.pmem.locked 7 = true ∧
      7 ∉ s.heap.kernel.pmem.handed .requestFrame ∧ SelfMapped 0xe000 s.heap.kernel 0x7ff8 := by
  obtain ⟨h, s, t, hnew, first, rest, -, hlive, hobtained⟩ := roomy_heap
  have run := first.append rest
  obtain ⟨-, -, -, hbytes⟩ := heap_in_machine PhysMem.roomy_begun (.nil _) hnew run
  have hx : Obtained t.heap.obtained 0x7ff8 := by
    rw [hobtained]
    exact ⟨(0x6000, 2), by decide, by decide, by decide⟩
  obtain ⟨hlocked, -, hhanded, hmapped⟩ := hbytes 0x7ff8 hx
  exact ⟨h, t, hnew, run, hlive, hlocked, hhanded _, hmapped⟩

/-- What one operation leaves of a live allocation. -/
theorem Serves.payload (serves : Serves s op t) (joint : Joint PML4 s)
    (fresh : Heap.Fresh t.heap.obtained) (live : (ptr, n) ∈ s.live) (kept : op ≠ .free ptr) :
    (ptr, n) ∈ t.live ∧ ∀ x, ptr ≤ x → x < ptr + n →
      t.heap.mem x = (lastWrite Heap.Op.writes x op.own).getD (s.heap.mem x) := by
  obtain ⟨k, mem, hmem, run⟩ := serves
  have hkept : .free ptr ∉ op.own := by
    cases op with
    | malloc bytes => simp [Op.own]
    | free p =>
      have hne : ptr ≠ p := fun h => kept (by rw [h])
      simp [Op.own, hne]
    | kernel op => cases op <;> simp [Op.own]
  obtain ⟨live', hlast⟩ := Heap.payload_of_run (sound_congr joint.sound hmem) run fresh live hkept
  refine ⟨live', fun x hlo hhi => ?_⟩
  have hx : Obtained s.heap.obtained x := joint.inPages ⟨(ptr, n), live, hlo, hhi⟩
  have hfirst : (view s.heap mem).mem x = s.heap.mem x := hmem x hx
  rw [← hfirst]
  exact hlast x hlo hhi

theorem payload_of_run (joint : Joint PML4 s) (run : Run (step PML4) (Allowed PML4) s after t)
    (live : (ptr, n) ∈ s.live) (kept : .free ptr ∉ after) :
    (ptr, n) ∈ t.live ∧ ∀ x, ptr ≤ x → x < ptr + n →
      t.heap.mem x = (lastWrite Heap.Op.writes x (after.flatMap Op.own)).getD (s.heap.mem x) := by
  induction run with
  | nil s => exact ⟨live, fun _ _ _ => rfl⟩
  | @cons s u t op ops allowed ok _ ih =>
    rw [List.mem_cons, not_or] at kept
    obtain ⟨hbacked, serves⟩ := step_serves joint allowed ok
    obtain ⟨live', hmem⟩ := serves.payload joint hbacked.fresh live (Ne.symm kept.1)
    obtain ⟨live'', hlast⟩ := ih (joint_of_step joint allowed ok) live' kept.2
    refine ⟨live'', fun x hlo hhi => ?_⟩
    rw [hlast x hlo hhi, hmem x hlo hhi, List.flatMap_cons, lastWrite_append, Option.getD_or]

/-- **A live allocation keeps what its owner wrote**: until it is freed, each of its bytes in the
machine's memory is what was last written to it, whatever the heap, the allocator, the page tables
and the other clients write in between. -/
theorem allocation_kept (begun : PhysMem.Begun PML4 m)
    (start : Run (PhysMem.step PML4) (Adm PML4) m pre kernel) (made : new PML4 kernel = .ok h)
    (run : Run (step PML4) (Allowed PML4) ⟨h, []⟩ before s) (live : (ptr, n) ∈ s.live)
    (rest : Run (step PML4) (Allowed PML4) s after t) (kept : .free ptr ∉ after) :
    (ptr, n) ∈ t.live ∧ ∀ x, ptr ≤ x → x < ptr + n →
      t.heap.mem x = (lastWrite Heap.Op.writes x (after.flatMap Op.own)).getD (s.heap.mem x) :=
  payload_of_run (joint_reached begun start made run) rest live kept

/-- There the owner's byte outlives the growth of the heap, the other client's request with its new
tables, and the merge of the freed block. -/
theorem roomy_heap_kept : ∃ h s t, new 0xe000 PhysMem.roomy = .ok h ∧
    Run (step 0xe000) (Allowed 0xe000) ⟨h, []⟩ [.malloc 10] s ∧
    Run (step 0xe000) (Allowed 0xe000) s
      [.kernel (.write 0x2020 0x2a#8), .malloc 4096, .kernel (.pmem .requestFrame),
        .kernel (.allocatePage 0x99999999999 0x8000), .free 0x6020] t ∧
      t.live = [(0x2020, 10)] ∧ t.heap.mem 0x2020 = 0x2a#8 := by
  obtain ⟨h, s, t, hnew, run, rest, hlive, hlive', -⟩ := roomy_heap
  have live : (0x2020, 10) ∈ s.live := by
    rw [hlive]
    decide
  obtain ⟨-, hmem⟩ := allocation_kept PhysMem.roomy_begun (.nil _) hnew run live rest (by decide)
  exact ⟨h, s, t, hnew, run, rest, hlive', hmem 0x2020 (by decide) (by decide)⟩

/-! ## When `malloc` completes -/

/-- One frame is never handed out by `request_frames`: the run begins where it ends, and the
assertion on the difference fails. -/
theorem one_refused {p : PMem} {r : Nat × PMem} (hzero : p.locked 0 = true)
    (hfits : p.frames < 2 ^ 64) : p.requestFrames 1 ≠ .ok r := by
  obtain ⟨ptr, q⟩ := r
  intro ok
  obtain ⟨first, last, hfind, -⟩ := PMem.requestFrames_ok ok
  obtain ⟨hsearch, hfirst, -, hsub⟩ := (PMem.findFrames_eq_ok_iff Nat.one_pos).mp hfind
  rcases PMem.search_cases hzero Nat.one_pos hsearch with
    ⟨-, free, hlast, -⟩ | ⟨-, tail, hlast, hle, hnone⟩ | ⟨hnone, -⟩
  · have hend := free.fits
    obtain rfl : last = first := by omega
    rw [sub64_of_le (Nat.le_refl last) (by omega)] at hsub
    omega
  · exact hnone first ⟨tail.hint, by omega, fun j h1 h2 => tail.free j h1 (by omega)⟩
  · omega

/-- A heap that has grown has asked for two frames or more. -/
theorem large_of_granted {granted : PhysMem} (backed : Backed PML4 m obtained)
    (request : (PhysMem.machine PML4).requestFrames (n / PAGE_SZ + 1) m = .ok (frame, granted)) :
    PAGE_SZ ≤ n := by
  by_contra hsmall
  have hpages : n / PAGE_SZ + 1 = 1 := by rw [Nat.div_eq_of_lt (by omega)]
  rw [hpages] at request
  obtain ⟨⟨frame', p⟩, hrequest, -⟩ := Except.bind_eq_ok.mp request
  have hframes := backed.safe.small
  have hzero : m.pmem.locked 0 = true := by
    by_cases hnone : m.pmem.frames = 0
    · obtain ⟨first, last, hfind, -⟩ := PMem.requestFrames_ok hrequest
      obtain ⟨hsearch, hfirst, -⟩ := (PMem.findFrames_eq_ok_iff Nat.one_pos).mp hfind
      rw [PMem.search, hnone, Nat.zero_sub] at hsearch
      exact absurd (Prod.mk.inj hsearch).1 (by omega)
    · exact backed.safe.locked 0 (by omega) (.inl rfl)
  exact one_refused hzero (by omega) hrequest

/-- **When `malloc` completes in the machine.** In every state that a run reaches, a request is
answered exactly when a free block is large enough, or it is for a page or more, leaves room for a
header in its last page, and the allocator has the frames and the tables to map them. So a heap
whose blocks are too small for a request of less than a page never grows: the assertion of
`request_frames` stops it. -/
theorem heap_grows_iff (begun : PhysMem.Begun PML4 m)
    (start : Run (PhysMem.step PML4) (Adm PML4) m pre kernel) (made : new PML4 kernel = .ok h)
    (run : Run (step PML4) (Allowed PML4) ⟨h, []⟩ before t) (pos : 0 < n)
    (whole : PAGE_SZ ≤ n → findFreeBlock t.heap.mem t.heap.blocks n = .ok 0 →
      AnsweredWhole t.heap.kernel.pmem (n / PAGE_SZ + 1)) :
    (∃ ptr heap, malloc PML4 t.heap n = .ok (ptr, heap)) ↔
      findFreeBlock t.heap.mem t.heap.blocks n ≠ .ok 0 ∨
        (PAGE_SZ ≤ n ∧ n % PAGE_SZ ≤ PAGE_SZ - BLOCK_HEADER_SZ ∧ ∃ frame granted mapped,
          (PhysMem.machine PML4).requestFrames (n / PAGE_SZ + 1) t.heap.kernel =
            .ok (frame, granted) ∧
          allocatePages (PhysMem.machine PML4) frame (n / PAGE_SZ + 1) granted = .ok mapped) := by
  have joint := joint_reached begun start made run
  obtain ⟨P, rep, inv⟩ := joint.sound
  have holds : Holds (view t.heap t.heap.mem) P := rep.toHolds
  by_cases full : findFreeBlock t.heap.mem t.heap.blocks n = .ok 0
  · have hgrown : ∀ {frame granted m},
        (PhysMem.machine PML4).requestFrames (n / PAGE_SZ + 1) t.heap.kernel =
          .ok (frame, granted) →
        allocatePages (PhysMem.machine PML4) frame (n / PAGE_SZ + 1) granted = .ok m →
        PAGE_SZ ≤ n ∧ Backed PML4 m (t.heap.obtained ++ [(frame, n / PAGE_SZ + 1)]) ∧
          Holds (view t.heap m.mem) P ∧ findFreeBlock m.mem t.heap.blocks n = .ok 0 := by
      intro frame granted m request mapped
      have hlarge := large_of_granted joint.backed request
      obtain ⟨hbacked, hmem⟩ := backed_of_grow joint.backed (whole hlarge full) request mapped
      have holds' := holds_congr holds inv hmem
      exact ⟨hlarge, hbacked, holds', (holds'.findFreeBlock_eq_zero inv n).mpr
        ((holds.findFreeBlock_eq_zero inv n).mp full)⟩
    constructor
    · rintro ⟨ptr, heap, ok⟩
      obtain ⟨frame, granted, m, request, mapped⟩ := granted_of_malloc full ok
      obtain ⟨hlarge, hbacked, holds', full'⟩ := hgrown request mapped
      rw [malloc_of_full full request mapped full'] at ok
      obtain ⟨⟨ptr', heap'⟩, hheap, -⟩ := Except.bind_eq_ok.mp ok
      obtain ⟨hrest, -⟩ := Heap.malloc_grown holds' inv full' rfl hbacked.fresh hheap
      exact .inr ⟨hlarge, hrest, frame, granted, m, request, mapped⟩
    · rintro (found | ⟨-, hrest, frame, granted, m, request, mapped⟩)
      · exact absurd full found
      obtain ⟨-, hbacked, holds', full'⟩ := hgrown request mapped
      have nonnull : frame ≠ 0 := by
        rintro rfl
        have hx : Obtained (t.heap.obtained ++ [(0, n / PAGE_SZ + 1)]) 0 := by
          refine obtained_append.mpr (.inr ⟨Nat.le_refl 0, ?_⟩)
          simp only [rangeEnd, PAGE_SZ, FRAME_SZ]
          omega
        exact (hbacked.client 0 hx).other (.inl rfl)
      obtain ⟨ptr, heap, hheap, -⟩ := Heap.malloc_grows holds' inv pos full' rfl nonnull
        hbacked.fresh (allocatePages_granting frame frame _) hrest
      rw [malloc_of_full full request mapped full', hheap]
      exact ⟨_, _, rfl⟩
  · refine iff_of_true ?_ (.inl full)
    obtain ⟨_, _, _, mem, -, -, -, hheap, -⟩ :=
      @Heap.malloc_takes _ (granting 0) _ _ _ holds inv pos full
    rw [malloc_of_found full, hheap]
    exact ⟨_, _, rfl⟩

/-- In the small machine a request for all of a page but 31 bytes is refused, with frames left. A
request for the whole page is answered: the heap grows. -/
theorem roomy_heap_refuses : ∃ h, new 0xe000 PhysMem.roomy = .ok h ∧
    0 < h.kernel.pmem.freeFrames ∧ (¬ ∃ ptr heap, malloc 0xe000 h 4065 = .ok (ptr, heap)) ∧
      findFreeBlock h.mem h.blocks 4096 = .ok 0 ∧
      ∃ ptr heap, malloc 0xe000 h 4096 = .ok (ptr, heap) := by
  obtain ⟨⟨h, r, mapped⟩, ok, facts⟩ : ∃ r, (do
      let h ← new 0xe000 PhysMem.roomy
      let r ← (PhysMem.machine 0xe000).requestFrames 2 h.kernel
      let mapped ← allocatePages (PhysMem.machine 0xe000) r.1 2 r.2
      return (h, r, mapped)) = .ok r ∧
        (r.1.kernel.pmem.freeFrames, (findFreeBlock r.1.mem r.1.blocks 4065).toOption,
          (findFreeBlock r.1.mem r.1.blocks 4096).toOption,
          (r.1.kernel.pmem.findFrames 2).toOption) = (8, some 0, some 0, some (6, 7)) := by
    apply Except.ok_of_toOption_map
    simp only [new, PhysMem.machine, PhysMem.allocatePage, PhysMem.getOrCreate, Paging.memset_eq]
    decide +kernel
  simp only [Prod.mk.injEq] at facts
  obtain ⟨hfree, hfull, hfull', hframes⟩ := facts
  obtain ⟨_, hnew, ok⟩ := Except.bind_eq_ok.mp ok
  obtain ⟨_, hrequest, ok⟩ := Except.bind_eq_ok.mp ok
  obtain ⟨_, hmapped, ok⟩ := Except.bind_eq_ok.mp ok
  obtain ⟨rfl, rfl, rfl⟩ : _ ∧ _ ∧ _ := by simpa only [Prod.mk.injEq] using Except.ok.inj ok
  have hsmall : ¬ PAGE_SZ ≤ 4065 := by decide
  refine ⟨_, hnew, by omega, fun answered => ?_, Except.eq_ok_of_toOption hfull', ?_⟩
  · rcases (heap_grows_iff PhysMem.roomy_begun (.nil _) hnew (.nil _) (by decide)
      fun hlarge => absurd hlarge hsmall).mp answered with found | ⟨hlarge, -⟩
    · exact found (Except.eq_ok_of_toOption hfull)
    · exact hsmall hlarge
  · refine (heap_grows_iff PhysMem.roomy_begun (.nil _) hnew (.nil _) (by decide)
      fun _ _ first last h => ?_).mpr (.inr ⟨by decide, by decide, _, _, _, hrequest, hmapped⟩)
    obtain ⟨rfl, rfl⟩ := Prod.mk.inj (Except.ok.inj ((Except.eq_ok_of_toOption hframes).symm.trans h))
    decide

end Steps

end PrintOS.KernelHeap
