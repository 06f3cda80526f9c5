import PrintOS.Laws.Bootloader.KernelLoader
import PrintOS.Lib.Run

/-!
# The pages of the segments

The segments of a kernel touch different pages, and the firmware has all of these free. `Answers` is
what the firmware is taken to do: `AllocatePages` at an address succeeds exactly when all the pages
are free, and takes them.

The loader asks for `p_filesz / PAGE_SZ + 1` pages. Where the size in the file is a multiple of the
page size, and the size in memory is no larger, that is one page more than the segment touches
(`Overshoots`). So all the segments are loaded exactly when these pages are free too, and belong to
no other segment (`segments_allocated_iff`).
-/

namespace PrintOS.Bootloader

open ByteMemory (Mem Byte)
open Program

/-! ## Things taken in turn -/

section InTurn

variable {α ι : Type} {claims : ι → α → Prop}

/-- Each one finds all that it claims among the free things, and takes it. -/
def TakenInTurn (claims : ι → α → Prop) : (α → Prop) → List ι → Prop
  | _, [] => True
  | free, i :: is =>
    (∀ a, claims i a → free a) ∧ TakenInTurn claims (fun a => free a ∧ ¬ claims i a) is

/-- The order does not matter: what is claimed is free, and no two claim the same. -/
theorem takenInTurn_iff {free : α → Prop} {is : List ι} :
    TakenInTurn claims free is ↔ (∀ i ∈ is, ∀ a, claims i a → free a) ∧
      is.Pairwise fun i j => ∀ a, claims i a → ¬ claims j a := by
  induction is generalizing free with
  | nil => simp [TakenInTurn]
  | cons i is ih =>
    rw [TakenInTurn, ih, List.forall_mem_cons, List.pairwise_cons]
    constructor
    · rintro ⟨first, rest, apart⟩
      exact ⟨⟨first, fun j hj a ha => (rest j hj a ha).1⟩,
        fun j hj a ha ha' => (rest j hj a ha').2 ha, apart⟩
    · rintro ⟨⟨first, rest⟩, apart, apart'⟩
      exact ⟨first, fun j hj a ha => ⟨rest j hj a ha, fun ha' => apart j hj a ha' ha⟩, apart'⟩

end InTurn

/-! ## Pages -/

/-- The page has a byte of the range. -/
def Range.Page (r : Range) (p : Nat) : Prop := ∃ x, r.Has x ∧ x / PAGE_SZ = p

/-- The memory of a segment. -/
def touched (h : Elf64Phdr) : Range := ⟨h.pPaddr, max h.pMemsz h.pFilesz⟩

/-- The pages that are asked for are one more than the segment touches. -/
def Overshoots (h : Elf64Phdr) : Prop :=
  h.pMemsz ≤ h.pFilesz ∧ h.pFilesz % PAGE_SZ = 0 ∧ h.pFilesz < PAGE_SZ * (2 ^ 16 - 1)

/-- The page after those that a segment touches. -/
def nextPage (h : Elf64Phdr) : Nat := (h.pPaddr + h.pFilesz) / PAGE_SZ

theorem page_iff {r : Range} {p : Nat} (aligned : r.addr % PAGE_SZ = 0) :
    r.Page p ↔ r.addr ≤ PAGE_SZ * p ∧ PAGE_SZ * p < r.addr + r.size := by
  simp only [Range.Page, Interval.Has, Range.stop, PAGE_SZ] at *
  constructor
  · rintro ⟨x, ⟨hlo, hhi⟩, rfl⟩
    omega
  · intro h
    exact ⟨0x1000 * p, h, by omega⟩

/-- A page that is asked for is touched, or is the one after. -/
theorem page_pagesOf_iff {h : Elf64Phdr} {p : Nat} (aligned : h.pPaddr % PAGE_SZ = 0) :
    ((pagesOf h).Page p ∧ ¬ (touched h).Page p) ↔ Overshoots h ∧ p = nextPage h := by
  rw [page_iff aligned, page_iff aligned]
  simp only [pagesOf, touched, Overshoots, nextPage, numOfPages, PAGE_SZ] at *
  omega

theorem touched_or_next {h : Elf64Phdr} {p : Nat} (aligned : h.pPaddr % PAGE_SZ = 0)
    (page : (pagesOf h).Page p) : (touched h).Page p ∨ (Overshoots h ∧ p = nextPage h) := by
  by_cases inside : (touched h).Page p
  · exact .inl inside
  · exact .inr ((page_pagesOf_iff aligned).mp ⟨page, inside⟩)

theorem page_nextPage {h : Elf64Phdr} (aligned : h.pPaddr % PAGE_SZ = 0) (shoots : Overshoots h) :
    (pagesOf h).Page (nextPage h) :=
  ((page_pagesOf_iff aligned).mpr ⟨shoots, rfl⟩).1

/-- The segments touch different pages. -/
def Unshared (h h' : Elf64Phdr) : Prop := ∀ p, (touched h).Page p → ¬ (touched h').Page p

/-- The segments are at page-aligned addresses and touch different pages, all of them free; the
table is in pages that are not. -/
structure Placed (free : Nat → Prop) (table : Range) (headers : List Elf64Phdr) : Prop where
  table : ∀ x, table.Has x → ¬ free (x / PAGE_SZ)
  aligned : ∀ h ∈ headers, h.pPaddr % PAGE_SZ = 0
  allFree : ∀ h ∈ headers, ∀ p, (touched h).Page p → free p
  unshared : headers.Pairwise Unshared

/-- Neither segment is given a page of the other. -/
def NoneGiven (h h' : Elf64Phdr) : Prop :=
  ∀ p, ((pagesOf h).Page p → ¬ (touched h').Page p) ∧ ((pagesOf h').Page p → ¬ (touched h).Page p)

/-- The page after a segment, where it is asked for, is not of the other segment, nor asked for with
the other one. -/
def RoomBeside (h h' : Elf64Phdr) : Prop :=
  (Overshoots h → ¬ (touched h').Page (nextPage h)) ∧
    (Overshoots h' → ¬ (touched h).Page (nextPage h')) ∧
    ¬ (Overshoots h ∧ Overshoots h' ∧ nextPage h = nextPage h')

/-- Where a segment asks for the page after it, that page is free and of no other segment. -/
structure RoomAfter (free : Nat → Prop) (headers : List Elf64Phdr) : Prop where
  free : ∀ h ∈ headers, Overshoots h → free (nextPage h)
  beside : headers.Pairwise RoomBeside

theorem roomBeside_iff {h h' : Elf64Phdr} (aligned : h.pPaddr % PAGE_SZ = 0)
    (aligned' : h'.pPaddr % PAGE_SZ = 0) (unshared : Unshared h h') :
    ((∀ p, (pagesOf h).Page p → ¬ (pagesOf h').Page p) ∧ NoneGiven h h') ↔ RoomBeside h h' := by
  constructor
  · rintro ⟨apart, none⟩
    refine ⟨fun shoots => (none _).1 (page_nextPage aligned shoots),
      fun shoots => (none _).2 (page_nextPage aligned' shoots), ?_⟩
    rintro ⟨shoots, shoots', same⟩
    exact apart _ (page_nextPage aligned shoots) (same ▸ page_nextPage aligned' shoots')
  · rintro ⟨room, room', differ⟩
    have none : NoneGiven h h' := by
      intro p
      constructor
      · intro page
        rcases touched_or_next aligned page with inside | ⟨shoots, rfl⟩
        · exact unshared p inside
        · exact room shoots
      · intro page inside'
        rcases touched_or_next aligned' page with inside | ⟨shoots, rfl⟩
        · exact unshared p inside' inside
        · exact room' shoots inside'
    refine ⟨fun p page page' => ?_, none⟩
    rcases touched_or_next aligned page with inside | ⟨shoots, rfl⟩
    · exact (none p).2 page' inside
    · rcases touched_or_next aligned' page' with inside | ⟨shoots', same⟩
      · exact room shoots inside
      · exact differ ⟨shoots, shoots', same⟩

/-- The segments are not read over the table. -/
theorem Placed.clear {free : Nat → Prop} {table : Range} {headers : List Elf64Phdr}
    (placed : Placed free table headers) : ∀ h ∈ headers, ∀ x, table.addr ≤ x →
      x < table.addr + table.size → x < h.pPaddr ∨ h.pPaddr + h.pFilesz ≤ x := by
  intro h mem x hlo hhi
  by_contra inside
  refine placed.table x ⟨hlo, hhi⟩ (placed.allFree h mem _ ⟨x, ⟨?_, ?_⟩, rfl⟩)
  · show h.pPaddr ≤ x
    omega
  · show x < h.pPaddr + max h.pMemsz h.pFilesz
    omega

/-- Segments that touch different free pages get all their pages, and none of another's, exactly
when there is room after them. -/
theorem roomAfter_iff {free : Nat → Prop} {table : Range} {headers : List Elf64Phdr}
    (placed : Placed free table headers) :
    (TakenInTurn (fun h => (pagesOf h).Page) free headers ∧ headers.Pairwise NoneGiven) ↔
      RoomAfter free headers := by
  obtain ⟨-, aligned, allFree, unshared⟩ := placed
  have hfree : (∀ h ∈ headers, ∀ p, (pagesOf h).Page p → free p) ↔
      ∀ h ∈ headers, Overshoots h → free (nextPage h) := by
    constructor
    · intro all h mem shoots
      exact all h mem _ (page_nextPage (aligned h mem) shoots)
    · intro next h mem p page
      rcases touched_or_next (aligned h mem) page with inside | ⟨shoots, rfl⟩
      · exact allFree h mem p inside
      · exact next h mem shoots
  have hbeside : (headers.Pairwise (fun h h' => ∀ p, (pagesOf h).Page p → ¬ (pagesOf h').Page p) ∧
      headers.Pairwise NoneGiven) ↔ headers.Pairwise RoomBeside := by
    rw [← List.pairwise_and_iff]
    constructor
    · intro both
      refine (both.and unshared).imp_of_mem fun mem mem' h => ?_
      exact (roomBeside_iff (aligned _ mem) (aligned _ mem') h.2).mp h.1
    · intro room
      refine (room.and unshared).imp_of_mem fun mem mem' h => ?_
      exact (roomBeside_iff (aligned _ mem) (aligned _ mem') h.2).mpr h.1
  rw [takenInTurn_iff, hfree, and_assoc, hbeside]
  exact ⟨fun h => ⟨h.1, h.2⟩, fun h => ⟨h.free, h.beside⟩⟩

/-! ## What the firmware answers -/

/-- `AllocatePages` succeeds exactly when all the pages are free, and takes them. Every other call
does what it is documented to do. -/
def Answers : (Nat → Prop) → List (Call × EfiStatus) → Prop
  | _, [] => True
  | free, (.allocatePages pages address, status) :: rest =>
    let r : Range := ⟨address, PAGE_SZ * pages⟩
    (status = EFI_SUCCESS ↔ ∀ p, r.Page p → free p) ∧
      Answers (fun p => free p ∧ (status = EFI_SUCCESS → ¬ r.Page p)) rest
  | free, (c, status) :: rest => status = c.documented ∧ Answers free rest

section Calls

variable {fw : Firmware} {E : Stop → Prop} {s : Efi} {file : EfiFile}

/-- A segment is loaded exactly when its pages are free, and takes them. -/
theorem loadElfSegmentByPHdr_answers (h : Elf64Phdr) :
    wp (loadElfSegmentByPHdr fw (some file) h) E (fun status t =>
      ∃ log, t.calls = s.calls ++ log ∧ ∀ free rest, Answers free (log ++ rest) →
        (status = EFI_SUCCESS ↔ ∀ p, (pagesOf h).Page p → free p) ∧
        (status = EFI_SUCCESS → Answers (fun p => free p ∧ ¬ (pagesOf h).Page p) rest)) s := by
  rw [loadElfSegmentByPHdr, wp_bind]
  apply allocatePages_spec
  intro t ht _
  generalize fw.status s.calls.length = status at ht ⊢
  rw [wp_ite]
  refine ⟨fun failed => ⟨_, ht, fun free rest answers => ⟨answers.1, fun done => absurd done failed⟩⟩,
    fun done => ?_⟩
  have taken := not_not.mp done
  rw [wp_deref, wp_bind]
  apply setPosition_spec
  intro u hu _
  generalize fw.status t.calls.length = positioned at hu ⊢
  rw [ht, List.append_assoc] at hu
  rw [wp_ite]
  refine ⟨fun failed => ⟨_, hu, fun free rest answers => absurd answers.2.1 failed⟩, fun _ => ?_⟩
  rw [wp_bind]
  apply read_spec
  intro v hv _
  generalize fw.status u.calls.length = done at hv ⊢
  rw [hu, List.append_assoc] at hv
  rw [wp_bind]
  apply report_spec
  intro w hw _
  rw [hv] at hw
  refine ⟨_, hw, fun free rest answers => ?_⟩
  obtain ⟨pages, -, read, after⟩ := answers
  refine ⟨⟨fun _ => pages.mp taken, fun _ => read⟩, fun _ => ?_⟩
  have hfree : (fun p => free p ∧ (status = EFI_SUCCESS → ¬ (pagesOf h).Page p)) =
      fun p => free p ∧ ¬ (pagesOf h).Page p := by
    funext p
    rw [forall_prop_of_true taken]
  rw [← hfree]
  exact after

/-- The loop ends. With the segments of a table that they do not touch, it gets to the end of the
table exactly when each of them finds its pages free. -/
theorem loadSegments_answers {stride : Nat} {base : Mem} {lo hi : Nat} (wide : PHDR_SZ ≤ stride)
    {left addr : Nat} (lo_le : lo ≤ addr) (le_hi : addr + left * stride ≤ hi)
    (same : ∀ x, lo ≤ x → x < hi → s.mem x = base x)
    (clear : ∀ h ∈ toLoad (headersFrom base stride left addr), ∀ x, lo ≤ x → x < hi →
      x < h.pPaddr ∨ h.pPaddr + h.pFilesz ≤ x) :
    wp (loadSegments fw (some file) stride left (some addr)) E (fun all t =>
      ∃ log, t.calls = s.calls ++ log ∧ ∀ free, Answers free log →
        (all = true ↔ TakenInTurn (fun h => (pagesOf h).Page) free
          (toLoad (headersFrom base stride left addr)))) s := by
  induction left generalizing addr s with
  | zero => exact ⟨[], (List.append_nil _).symm, fun _ _ => iff_of_true rfl trivial⟩
  | succ left ih =>
    rw [Nat.succ_mul] at le_hi
    have header : Elf64Phdr.ofMem s.mem addr = .ofMem base addr :=
      Elf64Phdr.ofMem_congr fun i hi => same (addr + i) (by omega) (by omega)
    have lo_le' : lo ≤ addr + stride := by omega
    have le_hi' : addr + stride + left * stride ≤ hi := by omega
    rw [headersFrom] at clear ⊢
    rw [loadSegments, wp_deref, wp_bind, wp_get, wp_bind, header]
    by_cases load : (Elf64Phdr.ofMem base addr).pType = PT_LOAD
    · rw [toLoad_cons_of_load load] at clear ⊢
      rw [loadPHdr, if_pos load]
      apply wp_mono (wp_and (loadElfSegmentByPHdr_answers _) (loadElfSegmentByPHdr_held _))
      rintro status t ⟨⟨log, hlog, answers⟩, held⟩
      rw [wp_ite]
      refine ⟨fun failed => ⟨log, hlog, fun free hanswers => ?_⟩, fun done => ?_⟩
      · have := answers free [] (by rwa [List.append_nil])
        exact iff_of_false Bool.false_ne_true fun h => failed (this.1.mpr h.1)
      · have done := not_not.mp done
        have hmem : t.mem = (loadOne (fw.volume file.name) s.held (.ofMem base addr)).mem :=
          congrArg Held.mem (held done)
        have same' : ∀ x, lo ≤ x → x < hi → t.mem x = base x := by
          intro x hx hx'
          rw [hmem, loadOne_of_outside _ _ (clear _ List.mem_cons_self x hx hx')]
          exact same x hx hx'
        apply wp_mono (ih lo_le' le_hi' same' fun h mem =>
          clear h (List.mem_cons_of_mem _ mem))
        rintro all u ⟨log', hlog', answers'⟩
        rw [hlog, List.append_assoc] at hlog'
        refine ⟨log ++ log', hlog', fun free hanswers => ?_⟩
        obtain ⟨hpages, hafter⟩ := answers free log' hanswers
        rw [answers' _ (hafter done), TakenInTurn, iff_and_self]
        exact fun _ => hpages.mp done
    · rw [toLoad_cons_of_not load] at clear ⊢
      rw [loadPHdr, if_neg load]
      exact ih lo_le' le_hi' same clear

end Calls

/-- **All segments are loaded exactly when there is room after them.** The loop of the loader ends,
on any firmware. For `PT_LOAD` segments that touch different free pages, and a firmware that answers
by what is free: every segment is loaded and none is given a page of another one, in whatever order
they stand, if and only if the page after each segment that fills its last page is free, of no other
segment and not also the page after another such segment. -/
theorem segments_allocated_iff (fw : Firmware) (file : EfiFile) (s : Efi) (free : Nat → Prop)
    {stride left addr : Nat} (wide : PHDR_SZ ≤ stride)
    (placed : Placed free ⟨addr, left * stride⟩ (toLoad (headersFrom s.mem stride left addr))) :
    ∃ all u, loadSegments fw (some file) stride left (some addr) s = .ok (all, u) ∧
      (Answers free (u.calls.drop s.calls.length) →
        ((all = true ∧ (toLoad (headersFrom s.mem stride left addr)).Pairwise NoneGiven) ↔
          RoomAfter free (toLoad (headersFrom s.mem stride left addr)))) := by
  have loop : wp (loadSegments fw (some file) stride left (some addr)) (fun _ => False) _ s :=
    loadSegments_answers wide (Nat.le_refl addr) (Nat.le_refl _) (fun _ _ _ => rfl) placed.clear
  obtain ⟨all, u, ended, log, hlog, answers⟩ := exists_of_wp loop
  refine ⟨all, u, ended, fun hanswers => ?_⟩
  rw [hlog, List.drop_left] at hanswers
  rw [answers free hanswers]
  exact roomAfter_iff placed

/-- The program header of a segment that is one page of the file and in memory, at `0x1000 * page`
from 1 MiB on. -/
def pageHeader (page : Byte) : List Byte :=
  [1, 0, 0, 0, 7, 0, 0, 0] ++ [0, 0x10, 0, 0, 0, 0, 0, 0] ++ .replicate 8 0 ++
    [0, 0x10 * page, 0x10, 0, 0, 0, 0, 0] ++ [0, 0x10, 0, 0, 0, 0, 0, 0] ++
    [0, 0x10, 0, 0, 0, 0, 0, 0] ++ [0, 0x10, 0, 0, 0, 0, 0, 0]

/-- A table of two such segments at 4 KiB, the second one at some page. -/
def twoPages (page : Byte) : Efi :=
  .start (Mem.copy (fun _ => 0) 0x1000 (pageHeader 0 ++ pageHeader page))

/-- A firmware that gives the second segment's `AllocatePages` some status. -/
def twoPagesFirmware (second : EfiStatus) : Firmware where
  status := fun n => if n = 3 then second else EFI_SUCCESS
  pool := fun _ => 0
  memoryMap := fun _ => []
  mapKey := fun _ => 0
  descriptorSize := fun _ => 48
  volume := fun _ => .replicate 0x2000 0x90
  mode := ⟨0, 0, 0, 0, 0⟩
  configurationTable := []
  stack := fun _ => 0

def onePage (page : Nat) : Elf64Phdr where
  pType := PT_LOAD
  pOffset := 0x1000
  pPaddr := 0x100000 + 0x1000 * page
  pFilesz := 0x1000
  pMemsz := 0x1000

theorem page_onePage (page p : Nat) : (⟨0x100000 + 0x1000 * page, PAGE_SZ * 2⟩ : Range).Page p ↔
    p = 0x100 + page ∨ p = 0x101 + page := by
  have aligned : (0x100000 + 0x1000 * page) % PAGE_SZ = 0 := by
    simp only [PAGE_SZ]
    omega
  rw [page_iff aligned]
  simp only [PAGE_SZ]
  omega

theorem touched_onePage (page p : Nat) : (touched (onePage page)).Page p ↔ p = 0x100 + page := by
  have aligned : (onePage page).pPaddr % PAGE_SZ = 0 := by
    simp only [onePage, PAGE_SZ]
    omega
  rw [page_iff aligned]
  simp only [touched, onePage, PAGE_SZ]
  omega

/-- Four pages from 1 MiB on are free. -/
def fourFree (p : Nat) : Prop := 0x100 ≤ p ∧ p < 0x104

theorem placed_onePages {page : Nat} (hpos : 0 < page) (hlt : page < 4) :
    Placed fourFree ⟨0x1000, 2 * 56⟩ [onePage 0, onePage page] := by
  refine ⟨?_, ?_, ?_, ?_⟩
  · rintro x ⟨-, hx⟩ ⟨hfree, -⟩
    simp only [Range.stop, PAGE_SZ] at hx hfree
    omega
  · simp only [List.forall_mem_cons, onePage, PAGE_SZ]
    exact ⟨by decide, by omega, fun h mem => absurd mem List.not_mem_nil⟩
  · simp only [List.forall_mem_cons, touched_onePage, fourFree]
    exact ⟨fun p hp => by omega, fun p hp => by omega, fun h mem => absurd mem List.not_mem_nil⟩
  · refine List.pairwise_pair.mpr fun p hp => ?_
    rw [touched_onePage] at hp ⊢
    omega

theorem nextPage_onePage (page : Nat) : nextPage (onePage page) = 0x101 + page := by
  simp only [nextPage, onePage, PAGE_SZ]
  omega

/-- The calls for the two segments, where the second `AllocatePages` gets some status. -/
def twoPagesCalls (page : Nat) (second : EfiStatus) : List (Call × EfiStatus) :=
  [(.allocatePages 2 0x100000, EFI_SUCCESS), (.setPosition ⟨"kernel.elf"⟩ 0x1000, EFI_SUCCESS),
    (.read ⟨"kernel.elf"⟩ 0x1000, EFI_SUCCESS),
    (.allocatePages 2 (0x100000 + 0x1000 * page), second)]

/-- With a page between them both segments are loaded. -/
theorem spaced_segments_allocated :
    ∃ u, loadSegments (twoPagesFirmware EFI_SUCCESS) (some ⟨"kernel.elf"⟩) 56 2 (some 0x1000)
      (twoPages 2) = .ok (true, u) := by
  have headers : toLoad (headersFrom (twoPages 2).mem 56 2 0x1000) = [onePage 0, onePage 2] := by
    decide +kernel
  have placed : Placed fourFree ⟨0x1000, 2 * 56⟩ [onePage 0, onePage 2] :=
    placed_onePages (by decide) (by decide)
  have room : RoomAfter fourFree [onePage 0, onePage 2] := by
    refine ⟨?_, List.pairwise_pair.mpr ⟨fun _ => ?_, fun _ => ?_, fun h => ?_⟩⟩
    · simp only [List.forall_mem_cons, nextPage_onePage, fourFree]
      exact ⟨fun _ => by omega, fun _ => by omega, fun h mem => absurd mem List.not_mem_nil⟩
    · rw [touched_onePage, nextPage_onePage]
      decide
    · rw [touched_onePage, nextPage_onePage]
      decide
    · rw [nextPage_onePage, nextPage_onePage] at h
      exact absurd h.2.2 (by decide)
  rw [← headers] at placed room
  obtain ⟨all, u, ended, loaded⟩ := segments_allocated_iff (twoPagesFirmware EFI_SUCCESS)
    ⟨"kernel.elf"⟩ (twoPages 2) fourFree (by decide) placed
  obtain ⟨r, ended', hcalls⟩ : ∃ r, loadSegments (twoPagesFirmware EFI_SUCCESS)
      (some ⟨"kernel.elf"⟩) 56 2 (some 0x1000) (twoPages 2) = .ok r ∧
        r.2.calls = twoPagesCalls 2 EFI_SUCCESS ++
          [(.setPosition ⟨"kernel.elf"⟩ 0x1000, EFI_SUCCESS),
            (.read ⟨"kernel.elf"⟩ 0x1000, EFI_SUCCESS)] := by
    apply Except.ok_of_toOption_map
    decide +kernel
  obtain rfl := Except.ok.inj (ended'.symm.trans ended)
  have answers : Answers fourFree (u.calls.drop (twoPages 2).calls.length) := by
    have hdrop : u.calls.drop (twoPages 2).calls.length = u.calls := rfl
    rw [hdrop, hcalls]
    refine ⟨iff_of_true rfl fun p page => ?_, rfl, rfl, iff_of_true rfl fun p page => ?_, rfl, rfl,
      trivial⟩
    · rw [page_onePage 0] at page
      simp only [fourFree]
      omega
    · rw [page_onePage 2] at page
      refine ⟨?_, fun _ => ?_⟩
      · simp only [fourFree]
        omega
      · rw [page_onePage 0]
        omega
  obtain ⟨hall, -⟩ := (loaded answers).mpr room
  exact ⟨u, hall ▸ ended⟩

/-- Of two segments back to back, each with a page of the file, the first is given the page of the
second, which is then not free. -/
theorem adjacent_segment_not_allocated :
    toLoad (headersFrom (twoPages 1).mem 56 2 0x1000) = [onePage 0, onePage 1] ∧
      Placed fourFree ⟨0x1000, 2 * 56⟩ [onePage 0, onePage 1] ∧
      ∃ u, loadSegments (twoPagesFirmware (efiError 14)) (some ⟨"kernel.elf"⟩) 56 2 (some 0x1000)
          (twoPages 1) = .ok (false, u) ∧
        Answers fourFree (u.calls.drop (twoPages 1).calls.length) ∧
        (pagesOf (onePage 0)).Page 0x101 ∧ (touched (onePage 1)).Page 0x101 := by
  obtain ⟨⟨all, u⟩, ended, heq⟩ : ∃ r, loadSegments (twoPagesFirmware (efiError 14))
      (some ⟨"kernel.elf"⟩) 56 2 (some 0x1000) (twoPages 1) = .ok r ∧
        (r.1, r.2.calls) = (false, twoPagesCalls 1 (efiError 14)) := by
    apply Except.ok_of_toOption_map
    decide +kernel
  obtain ⟨rfl, hcalls⟩ : all = false ∧ u.calls = twoPagesCalls 1 (efiError 14) := Prod.mk.inj heq
  refine ⟨by decide +kernel, placed_onePages (by decide) (by decide), u, ended, ?_,
    (page_onePage 0 0x101).mpr (.inr rfl), (touched_onePage 1 0x101).mpr rfl⟩
  have hdrop : u.calls.drop (twoPages 1).calls.length = u.calls := rfl
  rw [hdrop, hcalls]
  refine ⟨iff_of_true rfl fun p page => ?_, rfl, rfl, iff_of_false (by decide) fun all => ?_, trivial⟩
  · rw [page_onePage 0] at page
    simp only [fourFree]
    omega
  · exact (all 0x101 ((page_onePage 1 0x101).mpr (.inl rfl))).2 rfl
      ((page_onePage 0 0x101).mpr (.inr rfl))

end PrintOS.Bootloader
