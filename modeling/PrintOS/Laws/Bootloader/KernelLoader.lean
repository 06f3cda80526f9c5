import Mathlib.Data.List.Pairwise
import PrintOS.Bootloader.KernelLoader
import PrintOS.Laws.Bootloader.Efi
import PrintOS.Lib.Interval

/-!
# The kernel in memory

What the loader should leave: every `PT_LOAD` segment in pages that it allocated, with the bytes of
the file first and zeros after them (`AllLoaded`). The firmware is only assumed to hand out no
memory twice (`Honest`).

The loader allocates for the size in the file, keeps the number of pages in 16 bits, takes what a
read gives for the whole, and clears nothing. So a segment is loaded when it is all in the file, has
no more bytes in memory than the pages made from its size in the file, and memory was zero where it
has none in the file (`Fits`). For a file whose segments are where the format says they may be, that
is also the only way (`kernel_loaded`).
-/

namespace PrintOS.Bootloader

open ByteMemory (Mem Byte)
open Program

/-! ## The segments of a file -/

/-- A file as bytes at their offsets. -/
def bytesOf (file : List Byte) : Mem := fun i => file[i]?.getD 0

def elfHeader (file : List Byte) : Elf64Ehdr := .ofBytes (bytesOf file)

/-- Some program headers, one after the other. -/
def headersFrom (m : Mem) (stride : Nat) : Nat → Nat → List Elf64Phdr
  | 0, _ => []
  | left + 1, addr => .ofMem m addr :: headersFrom m stride left (addr + stride)

/-- The program headers of a file. -/
def programHeaders (file : List Byte) : List Elf64Phdr :=
  headersFrom (bytesOf file) (elfHeader file).ePhentsize (elfHeader file).ePhnum
    (elfHeader file).ePhoff

def toLoad (headers : List Elf64Phdr) : List Elf64Phdr := headers.filter (·.pType = PT_LOAD)

/-- The segments that are to be loaded. -/
def segments (file : List Byte) : List Elf64Phdr := toLoad (programHeaders file)

/-- The header and the table of program headers are in the file. -/
structure IsElf (file : List Byte) : Prop where
  size_lt : file.length < 2 ^ 64 - 1
  header_le : EHDR_SZ ≤ file.length
  stride_ge : PHDR_SZ ≤ (elfHeader file).ePhentsize
  table_le :
    (elfHeader file).ePhoff + (elfHeader file).ePhnum * (elfHeader file).ePhentsize ≤ file.length

/-! ## Ranges of memory -/

def Range.stop (r : Range) : Nat := r.addr + r.size

/-- The byte is in the range. -/
abbrev Range.Has (r : Range) (x : Nat) : Prop := Interval.Has Range.addr Range.stop r x

/-- The byte is in one of the ranges. -/
abbrev Covered (rs : List Range) (x : Nat) : Prop := Interval.Covered Range.addr Range.stop rs x

/-- No byte is in both ranges. -/
def Separate (r r' : Range) : Prop := ∀ x, r.Has x → ¬ r'.Has x

/-- The firmware handed out no memory twice. -/
def Honest (s : Efi) : Prop := (s.pages ++ s.pools).Pairwise Separate

/-- The pages that are allocated for a segment. -/
def pagesOf (h : Elf64Phdr) : Range := ⟨h.pPaddr, PAGE_SZ * numOfPages h.pFilesz⟩

/-! ## What is asked of the loader -/

/-- The segment is in allocated pages, with the bytes of the file and zeros after them. -/
structure SegmentLoaded (file : List Byte) (pages : List Range) (m : Mem) (h : Elf64Phdr) :
    Prop where
  covered : ∀ i, i < h.pMemsz → Covered pages (h.pPaddr + i)
  content : ∀ i, i < h.pFilesz → file[h.pOffset + i]? = some (m (h.pPaddr + i))
  zeroed : ∀ i, h.pFilesz ≤ i → i < h.pMemsz → m (h.pPaddr + i) = 0

/-- Every segment of the file is loaded, in the pages that were allocated between two states. -/
def AllLoaded (file : List Byte) (s t : Efi) : Prop :=
  ∀ h ∈ segments file, SegmentLoaded file (t.pages.drop s.pages.length) t.mem h

/-- The segment is in the file and in the pages made from its size there, and the rest of its
memory is zero before it is loaded. -/
structure SegmentFits (file : List Byte) (m : Mem) (h : Elf64Phdr) : Prop where
  whole : h.pFilesz = 0 ∨ h.pOffset + h.pFilesz ≤ file.length
  filesz_le : h.pFilesz ≤ PAGE_SZ * numOfPages h.pFilesz
  memsz_le : h.pMemsz ≤ PAGE_SZ * numOfPages h.pFilesz
  zero : ∀ i, h.pFilesz ≤ i → i < h.pMemsz → m (h.pPaddr + i) = 0

structure Fits (file : List Byte) (m : Mem) : Prop where
  elf : IsElf file
  segment : ∀ h ∈ segments file, SegmentFits file m h

/-- Of two segments, neither begins in the memory of the other. -/
def Beside (h h' : Elf64Phdr) : Prop :=
  ¬ (h.pPaddr ≤ h'.pPaddr ∧ h'.pPaddr < h.pPaddr + h.pMemsz) ∧
    ¬ (h'.pPaddr ≤ h.pPaddr ∧ h.pPaddr < h'.pPaddr + h'.pMemsz)

/-- What the format asks of the segments: none is larger in the file than in memory, and they do not
lie in each other. -/
structure Regular (file : List Byte) : Prop where
  elf : IsElf file
  filesz_le : ∀ h ∈ segments file, h.pFilesz ≤ h.pMemsz
  beside : (segments file).Pairwise Beside

/-- The range is clear of the bytes that are read for the segments. -/
def Clear (headers : List Elf64Phdr) (r : Range) : Prop :=
  ∀ h ∈ headers, ∀ x, r.Has x → x < h.pPaddr ∨ h.pPaddr + h.pFilesz ≤ x

/-! ## What the loader does to memory -/

/-- The bytes that a read of some size gives after a `SetPosition`. -/
def bytesAt (file : List Byte) (position size : Nat) : List Byte :=
  (file.drop (seek file position)).take size

section Calls

variable {fw : Firmware} {E : Stop → Prop} {s : Efi} {file : EfiFile}

theorem getElfHeader_held :
    wp (getElfHeader fw (some file)) E (fun r t => r.1 = EFI_SUCCESS → t.held = s.held ∧
      r.2 = .ofBytes (Mem.copy fw.stack 0 ((fw.volume file.name).take EHDR_SZ))) s := by
  rw [getElfHeader, wp_deref, wp_bind]
  apply setPosition_spec
  intro t _ position
  rw [wp_ite]
  refine ⟨fun failed done => absurd done failed, fun done => ?_⟩
  obtain ⟨hheld, hposition⟩ := position (not_not.mp done)
  rw [wp_bind]
  apply readBytes_spec
  intro u _ hu
  rw [wp_bind]
  apply report_spec
  intro v _ hv done
  refine ⟨hv.trans (hu.trans hheld), ?_⟩
  show Elf64Ehdr.ofBytes (Mem.copy fw.stack 0 (if _ then _ else _)) = _
  rw [if_pos done, hposition]
  rfl

theorem getElfPHdrs_held (eHdr : Elf64Ehdr) :
    wp (getElfPHdrs fw (some file) eHdr) E (fun r t => r.1 = EFI_SUCCESS →
      ∃ buffer, r.2 = some buffer ∧
        t.held = (s.held.addPool ⟨buffer, allPHdrsSz eHdr⟩).copy buffer
          (bytesAt (fw.volume file.name) eHdr.ePhoff (allPHdrsSz eHdr))) s := by
  rw [getElfPHdrs, wp_bind]
  apply allocatePool_spec
  intro t _ pool
  rw [wp_ite]
  refine ⟨fun failed done => absurd done failed, fun done => ?_⟩
  have ht := pool (not_not.mp done)
  rw [if_pos (not_not.mp done), wp_deref, wp_bind]
  apply setPosition_spec
  intro u _ position
  rw [wp_ite]
  refine ⟨fun failed done => absurd done failed, fun done => ?_⟩
  obtain ⟨hu, hposition⟩ := position (not_not.mp done)
  rw [wp_deref, wp_bind]
  apply read_spec
  intro v _ bytes
  rw [wp_ite]
  refine ⟨fun failed done => absurd done failed, fun done _ => ⟨_, rfl, ?_⟩⟩
  rw [bytes (not_not.mp done), hposition, hu, ht]
  rfl

/-- A segment is given pages, and its bytes of the file are copied there. -/
def loadOne (file : List Byte) (held : Held) (h : Elf64Phdr) : Held :=
  (held.addPages (pagesOf h)).copy h.pPaddr (bytesAt file h.pOffset h.pFilesz)

theorem loadElfSegmentByPHdr_held (h : Elf64Phdr) :
    wp (loadElfSegmentByPHdr fw (some file) h) E (fun status t => status = EFI_SUCCESS →
      t.held = loadOne (fw.volume file.name) s.held h) s := by
  rw [loadElfSegmentByPHdr, wp_bind]
  apply allocatePages_spec
  intro t _ pages
  rw [wp_ite]
  refine ⟨fun failed done => absurd done failed, fun done => ?_⟩
  have ht := pages (not_not.mp done)
  rw [wp_deref, wp_bind]
  apply setPosition_spec
  intro u _ position
  rw [wp_ite]
  refine ⟨fun failed done => absurd done failed, fun done => ?_⟩
  obtain ⟨hu, hposition⟩ := position (not_not.mp done)
  rw [wp_bind]
  apply read_spec
  intro v _ bytes
  rw [wp_bind]
  apply report_spec
  intro w _ hw done
  rw [hw, bytes done, hposition, hu, ht]
  rfl

/-- What a header of the table does, if the loader goes on after it. -/
theorem loadPHdr_held (h : Elf64Phdr) :
    wp (loadPHdr fw (some file) h) E (fun status t => status = EFI_SUCCESS →
      t.held = if h.pType = PT_LOAD then loadOne (fw.volume file.name) s.held h else s.held) s := by
  unfold loadPHdr
  split_ifs
  · exact loadElfSegmentByPHdr_held h
  · exact fun _ => rfl

end Calls

/-! ## The loop -/

section Loop

variable {fw : Firmware} {file : EfiFile} {stride : Nat}

theorem toLoad_cons_of_load {h : Elf64Phdr} (load : h.pType = PT_LOAD) (hs : List Elf64Phdr) :
    toLoad (h :: hs) = h :: toLoad hs :=
  List.filter_cons_of_pos (decide_eq_true load)

theorem toLoad_cons_of_not {h : Elf64Phdr} (load : h.pType ≠ PT_LOAD) (hs : List Elf64Phdr) :
    toLoad (h :: hs) = toLoad hs :=
  List.filter_cons_of_neg (by simpa using load)

/-- One turn of the loop that went on. -/
theorem loadSegments_succ {left addr : Nat} {s u : Efi}
    (ended : loadSegments fw (some file) stride (left + 1) (some addr) s = .ok (true, u)) :
    ∃ t, (t.held = if (Elf64Phdr.ofMem s.mem addr).pType = PT_LOAD then
        loadOne (fw.volume file.name) s.held (.ofMem s.mem addr) else s.held) ∧
      loadSegments fw (some file) stride left (some (addr + stride)) t = .ok (true, u) := by
  -- The loop follows a pointer that is not null and reads the header, neither of which is a call.
  have turn : (loadPHdr fw (some file) (.ofMem s.mem addr) >>= fun status =>
      if status ≠ EFI_SUCCESS then pure false
      else loadSegments fw (some file) stride left (some (addr + stride))) s = .ok (true, u) :=
    ended
  obtain ⟨status, t, hstep, hrest⟩ := bind_eq_ok.mp turn
  by_cases done : status = EFI_SUCCESS
  · rw [if_neg (not_not.mpr done)] at hrest
    have held : wp (loadPHdr fw (some file) (.ofMem s.mem addr)) (fun _ => True) _ s :=
      loadPHdr_held _
    exact ⟨t, (wp_of_ok hstep).mp held done, hrest⟩
  · rw [if_pos done] at hrest
    cases hrest

/-- What was handed out before the loop stays so. -/
theorem loadSegments_keeps {left addr : Nat} {s u : Efi}
    (ended : loadSegments fw (some file) stride left (some addr) s = .ok (true, u)) :
    (∀ r ∈ s.held.pages, r ∈ u.held.pages) ∧ u.held.pools = s.held.pools := by
  induction left generalizing addr s with
  | zero =>
    cases ended
    exact ⟨fun _ mem => mem, rfl⟩
  | succ left ih =>
    obtain ⟨t, held, rest⟩ := loadSegments_succ ended
    obtain ⟨pages, pools⟩ := ih rest
    rw [held] at pages pools
    split_ifs at pages pools
    · exact ⟨fun r mem => pages r (List.mem_append_left _ mem), pools⟩
    · exact ⟨pages, pools⟩

theorem Elf64Phdr.ofMem_congr {m m' : Mem} {a a' : Nat}
    (h : ∀ i, i < PHDR_SZ → m' (a' + i) = m (a + i)) : ofMem m' a' = ofMem m a := by
  have word : ∀ off n, off + n ≤ PHDR_SZ → m'.readLE (a' + off) n = m.readLE (a + off) n := by
    intro off n le
    apply Mem.readLE_eq_of_bytes
    intro i hi
    rw [Nat.add_assoc, Nat.add_assoc]
    exact h (off + i) (by omega)
  have pType : m'.readLE a' 4 = m.readLE a 4 := word 0 4 (by decide)
  rw [ofMem, ofMem, pType, word 8 8 (by decide), word 24 8 (by decide), word 32 8 (by decide),
    word 40 8 (by decide)]

/-- A table depends on its own bytes only. -/
theorem headersFrom_congr {m m' : Mem} (wide : PHDR_SZ ≤ stride) {left addr addr' : Nat}
    (h : ∀ i, i < left * stride → m' (addr' + i) = m (addr + i)) :
    headersFrom m' stride left addr' = headersFrom m stride left addr := by
  induction left generalizing addr addr' with
  | zero => rfl
  | succ left ih =>
    rw [Nat.succ_mul] at h
    have header : Elf64Phdr.ofMem m' addr' = .ofMem m addr :=
      Elf64Phdr.ofMem_congr fun i hi => h i (by omega)
    have rest : headersFrom m' stride left (addr' + stride) =
        headersFrom m stride left (addr + stride) := by
      apply ih
      intro i hi
      rw [Nat.add_assoc, Nat.add_assoc]
      exact h (stride + i) (by omega)
    rw [headersFrom, headersFrom, header, rest]

theorem length_bytesAt_le (bytes : List Byte) (position size : Nat) :
    (bytesAt bytes position size).length ≤ size :=
  List.length_take_le _ _

/-- Loading a segment touches no byte outside of those that it has in the file. -/
theorem loadOne_of_outside (bytes : List Byte) (held : Held) {h : Elf64Phdr} {x : Nat}
    (outside : x < h.pPaddr ∨ h.pPaddr + h.pFilesz ≤ x) :
    (loadOne bytes held h).mem x = held.mem x := by
  have := length_bytesAt_le bytes h.pOffset h.pFilesz
  apply Mem.copy_of_outside
  omega

/-- The table is in the range `[lo, hi)`, and what is loaded on the way does not touch it: then the
loop loads the segments of the table, one after the other. -/
theorem loadSegments_held {bytes : List Byte} (hfile : fw.volume file.name = bytes) {base : Mem}
    {lo hi : Nat} (wide : PHDR_SZ ≤ stride) {left addr : Nat} {s u : Efi}
    (ended : loadSegments fw (some file) stride left (some addr) s = .ok (true, u))
    (lo_le : lo ≤ addr) (le_hi : addr + left * stride ≤ hi)
    (same : ∀ x, lo ≤ x → x < hi → s.held.mem x = base x)
    (clear : ∀ h ∈ toLoad (headersFrom base stride left addr), pagesOf h ∈ u.held.pages →
      ∀ x, lo ≤ x → x < hi → x < h.pPaddr ∨ h.pPaddr + h.pFilesz ≤ x) :
    u.held = (toLoad (headersFrom base stride left addr)).foldl (loadOne bytes) s.held := by
  subst hfile
  induction left generalizing addr s with
  | zero =>
    cases ended
    rfl
  | succ left ih =>
    obtain ⟨t, held, rest⟩ := loadSegments_succ ended
    rw [Nat.succ_mul] at le_hi
    have header : Elf64Phdr.ofMem s.mem addr = .ofMem base addr :=
      Elf64Phdr.ofMem_congr fun i hi => same (addr + i) (by omega) (by omega)
    rw [header] at held
    rw [headersFrom] at clear ⊢
    by_cases load : (Elf64Phdr.ofMem base addr).pType = PT_LOAD
    · rw [if_pos load] at held
      rw [toLoad_cons_of_load load] at clear ⊢
      rw [List.foldl_cons, ← held]
      have allocated : pagesOf (.ofMem base addr) ∈ u.held.pages := by
        apply (loadSegments_keeps rest).1
        rw [held]
        exact List.mem_append_right _ (List.mem_singleton.mpr rfl)
      refine ih rest (by omega) (by omega) ?_ fun h mem => clear h (List.mem_cons_of_mem _ mem)
      intro x hx hx'
      rw [held, loadOne_of_outside _ _ (clear _ List.mem_cons_self allocated x hx hx')]
      exact same x hx hx'
    · rw [if_neg load] at held
      rw [toLoad_cons_of_not load] at clear ⊢
      rw [← held] at same ⊢
      exact ih rest (by omega) (by omega) same clear

end Loop

/-! ## The whole loader -/

section Whole

variable {fw : Firmware} {file : EfiFile} {bytes : List Byte}

theorem Elf64Ehdr.ofBytes_congr {m m' : Mem} (h : ∀ i, i < EHDR_SZ → m' i = m i) :
    ofBytes m' = ofBytes m := by
  have word : ∀ off n, off + n ≤ EHDR_SZ → Mem.readLE m' off n = Mem.readLE m off n := by
    intro off n le
    apply Mem.readLE_congr
    intro x hx hx'
    exact h x (by omega)
  rw [ofBytes, ofBytes, h 0 (by decide), h 4 (by decide), h 5 (by decide), word 16 2 (by decide),
    word 18 2 (by decide), word 20 4 (by decide), word 24 8 (by decide), word 32 8 (by decide),
    word 54 2 (by decide), word 56 2 (by decide)]

/-- The header that the loader reads is that of the file. -/
theorem header_eq (whole : EHDR_SZ ≤ bytes.length) (stack : Nat → Byte) :
    Elf64Ehdr.ofBytes (Mem.copy stack 0 (bytes.take EHDR_SZ)) = elfHeader bytes := by
  apply Elf64Ehdr.ofBytes_congr
  intro i hi
  have hbyte : bytes[i]? = some bytes[i] := List.getElem?_eq_getElem (by omega)
  have htaken : (bytes.take EHDR_SZ)[i]? = some bytes[i] := by
    rw [List.getElem?_take_of_lt hi, hbyte]
  have hcopy := Mem.copy_apply (m := stack) (a := 0) htaken
  rw [Nat.zero_add] at hcopy
  rw [hcopy, bytesOf, hbyte]
  rfl

theorem allPHdrsSz_ge (eHdr : Elf64Ehdr) : eHdr.ePhnum * eHdr.ePhentsize ≤ allPHdrsSz eHdr := by
  rw [allPHdrsSz, Nat.mul_comm]
  split_ifs
  · exact Nat.le_refl _
  · exact Nat.le_add_right _ _

/-- The bytes that a read after a `SetPosition` gives are those of the file. -/
theorem getElem?_bytesAt {position size i : Nat} (below : position < 2 ^ 64 - 1) (hi : i < size) :
    (bytesAt bytes position size)[i]? = bytes[position + i]? := by
  rw [bytesAt, List.getElem?_take_of_lt hi, List.getElem?_drop, seek,
    if_neg (Nat.ne_of_lt below)]

/-- How far the loader got when it returned an entry point: it read the table to some memory, and
then went through the headers in it. -/
theorem loadKernelIntoMemory_ok (hfile : fw.volume file.name = bytes) (elf : IsElf bytes)
    {s u : Efi} {entry : Nat}
    (returned : loadKernelIntoMemory fw (some file) s = .ok (some entry, u)) :
    ∃ buffer t,
      t.held = (s.held.addPool ⟨buffer, allPHdrsSz (elfHeader bytes)⟩).copy buffer
        (bytesAt bytes (elfHeader bytes).ePhoff (allPHdrsSz (elfHeader bytes))) ∧
      loadSegments fw (some file) (elfHeader bytes).ePhentsize (elfHeader bytes).ePhnum
        (some buffer) t = .ok (true, u) := by
  obtain ⟨⟨status, eHdr⟩, s₁, hheader, rest⟩ := bind_eq_ok.mp returned
  by_cases done : status = EFI_SUCCESS
  swap
  · simp only [if_pos done] at rest
    cases rest
  have header : wp (getElfHeader fw (some file)) (fun _ => True) _ s := getElfHeader_held
  obtain ⟨hs₁, heHdr⟩ := (wp_of_ok hheader).mp header done
  obtain rfl : eHdr = elfHeader bytes := by
    rw [← header_eq elf.header_le fw.stack, ← hfile]
    exact heHdr
  simp only [if_neg (not_not.mpr done)] at rest
  obtain ⟨s₂, s₃, hget, rest⟩ := bind_eq_ok.mp rest
  cases hget
  by_cases rejected : verifyKernelElfHeader s₁.mem (elfHeader bytes) = true
  · rw [if_pos rejected] at rest
    cases rest
  rw [if_neg rejected] at rest
  obtain ⟨⟨status, pHdrs⟩, t, htable, rest⟩ := bind_eq_ok.mp rest
  by_cases done : status = EFI_SUCCESS
  swap
  · simp only [if_pos done] at rest
    cases rest
  have table : wp (getElfPHdrs fw (some file) (elfHeader bytes)) (fun _ => True) _ s₁ :=
    getElfPHdrs_held _
  obtain ⟨buffer, rfl, ht⟩ := (wp_of_ok htable).mp table done
  simp only [if_neg (not_not.mpr done)] at rest
  obtain ⟨all, u', hloop, rest⟩ := bind_eq_ok.mp rest
  cases all with
  | false => cases rest
  | true =>
    obtain ⟨_, rfl⟩ := Prod.mk.inj (Except.ok.inj rest)
    rw [hs₁, hfile] at ht
    exact ⟨buffer, t, ht, hloop⟩

/-- The table that was read to memory is that of the file. -/
theorem headersFrom_copy (elf : IsElf bytes) (m : Mem) (buffer : Nat) :
    headersFrom
      (m.copy buffer (bytesAt bytes (elfHeader bytes).ePhoff (allPHdrsSz (elfHeader bytes))))
      (elfHeader bytes).ePhentsize (elfHeader bytes).ePhnum buffer = programHeaders bytes := by
  apply headersFrom_congr elf.stride_ge
  intro i hi
  have hsize := allPHdrsSz_ge (elfHeader bytes)
  have hlt := elf.table_le
  have hsmall := elf.size_lt
  have hbyte : bytes[(elfHeader bytes).ePhoff + i]? = some bytes[(elfHeader bytes).ePhoff + i] :=
    List.getElem?_eq_getElem (by omega)
  rw [bytesOf, hbyte]
  apply Mem.copy_apply
  rw [getElem?_bytesAt (by omega) (by omega), hbyte]
  rfl

/-- What the loader leaves, unless a segment was read over the table on the way: it loaded the
segments of the file one after the other. -/
theorem loadKernelIntoMemory_held (hfile : fw.volume file.name = bytes) (elf : IsElf bytes)
    {s u : Efi} {entry : Nat}
    (returned : loadKernelIntoMemory fw (some file) s = .ok (some entry, u)) :
    ∃ table : Range, table ∈ u.pools ∧
      ((∀ h ∈ segments bytes, pagesOf h ∈ u.pages →
        ∀ x, table.Has x → x < h.pPaddr ∨ h.pPaddr + h.pFilesz ≤ x) →
      ∃ m : Mem, (∀ x, ¬ table.Has x → m x = s.mem x) ∧
        u.held = (segments bytes).foldl (loadOne bytes)
          ⟨m, s.pages, s.pools ++ [table]⟩) := by
  obtain ⟨buffer, t, ht, hloop⟩ := loadKernelIntoMemory_ok hfile elf returned
  refine ⟨⟨buffer, allPHdrsSz (elfHeader bytes)⟩, ?_, fun clear => ?_⟩
  · have hpools : u.held.pools = t.held.pools := (loadSegments_keeps hloop).2
    show _ ∈ u.held.pools
    rw [hpools, ht]
    exact List.mem_append_right _ (List.mem_singleton.mpr rfl)
  have htable : headersFrom t.held.mem (elfHeader bytes).ePhentsize (elfHeader bytes).ePhnum
      buffer = programHeaders bytes := by
    rw [ht]
    exact headersFrom_copy elf s.mem buffer
  have run : u.held = (toLoad (headersFrom t.held.mem (elfHeader bytes).ePhentsize
      (elfHeader bytes).ePhnum buffer)).foldl (loadOne bytes) t.held := by
    apply loadSegments_held hfile elf.stride_ge hloop (Nat.le_refl buffer)
      (Nat.add_le_add_left (allPHdrsSz_ge (elfHeader bytes)) buffer) fun _ _ _ => rfl
    rw [htable]
    exact fun h mem pages x hx hx' => clear h mem pages x ⟨hx, hx'⟩
  rw [htable] at run
  refine ⟨t.held.mem, ?_, ?_⟩
  · intro x outside
    have hlength := length_bytesAt_le bytes (elfHeader bytes).ePhoff
      (allPHdrsSz (elfHeader bytes))
    rw [ht]
    apply Mem.copy_of_outside
    by_contra inside
    apply outside
    show buffer ≤ x ∧ x < buffer + allPHdrsSz (elfHeader bytes)
    omega
  · rw [run]
    congr 1
    rw [ht]
    rfl

end Whole

/-! ## Segments in their own pages -/

section Segments

variable {bytes : List Byte} {hs : List Elf64Phdr} {held : Held} {h : Elf64Phdr} {x : Nat}

theorem foldl_loadOne_pages (bytes : List Byte) (held : Held) (hs : List Elf64Phdr) :
    (hs.foldl (loadOne bytes) held).pages = held.pages ++ hs.map pagesOf := by
  induction hs generalizing held with
  | nil => exact (List.append_nil _).symm
  | cons h hs ih =>
    rw [List.foldl_cons, ih, List.map_cons, List.append_cons]
    rfl

theorem foldl_loadOne_pools (bytes : List Byte) (held : Held) (hs : List Elf64Phdr) :
    (hs.foldl (loadOne bytes) held).pools = held.pools := by
  induction hs generalizing held with
  | nil => rfl
  | cons h hs ih =>
    rw [List.foldl_cons, ih]
    rfl

/-- A byte that is read for no segment stays as it was. -/
theorem foldl_loadOne_of_outside
    (outside : ∀ h ∈ hs, x < h.pPaddr ∨ h.pPaddr + h.pFilesz ≤ x) :
    (hs.foldl (loadOne bytes) held).mem x = held.mem x := by
  induction hs generalizing held with
  | nil => rfl
  | cons h hs ih =>
    rw [List.foldl_cons, ih fun h mem => outside h (List.mem_cons_of_mem _ mem)]
    exact loadOne_of_outside bytes held (outside h List.mem_cons_self)

/-- The bytes that are read for a segment are in the pages for it. -/
def InPages (h : Elf64Phdr) : Prop := h.pFilesz ≤ PAGE_SZ * numOfPages h.pFilesz

/-- A byte that is in no page of a segment is not read for it. -/
theorem outside_of_not_has (inPages : InPages h) (not : ¬ (pagesOf h).Has x) :
    x < h.pPaddr ∨ h.pPaddr + h.pFilesz ≤ x := by
  by_contra inside
  apply not
  show h.pPaddr ≤ x ∧ x < h.pPaddr + PAGE_SZ * numOfPages h.pFilesz
  unfold InPages at inPages
  omega

/-- In the pages of a segment only that segment is loaded. -/
theorem foldl_loadOne_of_has (separate : (hs.map pagesOf).Pairwise Separate)
    (inPages : ∀ h ∈ hs, InPages h) (mem : h ∈ hs) (has : (pagesOf h).Has x) :
    (hs.foldl (loadOne bytes) held).mem x =
      held.mem.copy h.pPaddr (bytesAt bytes h.pOffset h.pFilesz) x := by
  obtain ⟨before, after, rfl⟩ := List.append_of_mem mem
  rw [List.map_append, List.map_cons, List.pairwise_append, List.pairwise_cons] at separate
  obtain ⟨_, ⟨hafter, _⟩, hbefore⟩ := separate
  have outside_after : ∀ h' ∈ after, x < h'.pPaddr ∨ h'.pPaddr + h'.pFilesz ≤ x := by
    intro h' mem'
    apply outside_of_not_has (inPages h' (by simp [mem']))
    exact hafter _ (List.mem_map_of_mem mem') x has
  have outside_before : ∀ h' ∈ before, x < h'.pPaddr ∨ h'.pPaddr + h'.pFilesz ≤ x := by
    intro h' mem'
    apply outside_of_not_has (inPages h' (by simp [mem']))
    exact fun has' =>
      hbefore _ (List.mem_map_of_mem mem') _ List.mem_cons_self x has' has
  rw [List.foldl_append, List.foldl_cons, foldl_loadOne_of_outside outside_after]
  show Mem.copy (before.foldl (loadOne bytes) held).mem h.pPaddr _ x = _
  unfold Mem.copy
  rw [foldl_loadOne_of_outside outside_before]

instance : Std.Symm Beside := ⟨fun _ _ beside => ⟨beside.2, beside.1⟩⟩

/-- The pages for a size in the file are more than the size by a page at the most. -/
theorem pages_le (filesz : Nat) : PAGE_SZ * numOfPages filesz ≤ filesz + PAGE_SZ := by
  unfold numOfPages PAGE_SZ
  omega

/-- There are no pages only for a size that is more than a page. -/
theorem filesz_of_no_pages {filesz : Nat} (h : numOfPages filesz = 0) : PAGE_SZ < filesz := by
  unfold PAGE_SZ
  unfold numOfPages PAGE_SZ at h
  omega

/-- No other segment's pages make up for those that a segment lacks. -/
theorem memsz_le_of_covered (beside : hs.Pairwise Beside)
    (filesz_le : ∀ h ∈ hs, h.pFilesz ≤ h.pMemsz) (mem : h ∈ hs)
    (covered : ∀ i, i < h.pMemsz → Covered (hs.map pagesOf) (h.pPaddr + i)) :
    h.pMemsz ≤ PAGE_SZ * numOfPages h.pFilesz := by
  by_contra less
  have hfilesz := filesz_le h mem
  -- The first byte after the pages, or after one page where there are none.
  obtain ⟨i, hi, hpage, hpages⟩ :
      ∃ i, i < h.pMemsz ∧ PAGE_SZ ≤ i ∧ PAGE_SZ * numOfPages h.pFilesz ≤ i := by
    rcases Nat.eq_zero_or_pos (numOfPages h.pFilesz) with none | some
    · have := filesz_of_no_pages none
      exact ⟨PAGE_SZ, by omega, Nat.le_refl _, by rw [none]; omega⟩
    · exact ⟨PAGE_SZ * numOfPages h.pFilesz, by omega, Nat.le_mul_of_pos_right _ some,
        Nat.le_refl _⟩
  obtain ⟨r, hr, hlo, hhi⟩ := covered i hi
  obtain ⟨h', mem', rfl⟩ := List.mem_map.mp hr
  change h'.pPaddr ≤ h.pPaddr + i at hlo
  change h.pPaddr + i < h'.pPaddr + PAGE_SZ * numOfPages h'.pFilesz at hhi
  by_cases same : h = h'
  · subst same
    omega
  · obtain ⟨hnot, hnot'⟩ := beside.forall mem mem' same
    have := filesz_le h' mem'
    have := pages_le h'.pFilesz
    omega

end Segments

/-! ## The kernel in memory -/

section Loaded

variable {fw : Firmware} {file : EfiFile} {bytes : List Byte} {s u : Efi} {entry : Nat}

/-- The segments' pages are apart from each other and from the table. -/
theorem Honest.separate {table : Range} {m : Mem} (honest : Honest u)
    (run : u.held = (segments bytes).foldl (loadOne bytes) ⟨m, s.pages, s.pools ++ [table]⟩) :
    ((segments bytes).map pagesOf).Pairwise Separate ∧
      ∀ h ∈ segments bytes, Separate (pagesOf h) table := by
  have hpages : u.pages = s.pages ++ (segments bytes).map pagesOf := by
    show u.held.pages = _
    rw [run, foldl_loadOne_pages]
  have hpools : u.pools = s.pools ++ [table] := by
    show u.held.pools = _
    rw [run, foldl_loadOne_pools]
  rw [Honest, hpages, hpools, List.pairwise_append, List.pairwise_append] at honest
  obtain ⟨⟨_, separate, _⟩, _, across⟩ := honest
  refine ⟨separate, fun h mem => ?_⟩
  exact across _ (List.mem_append_right _ (List.mem_map_of_mem mem)) _
    (List.mem_append_right _ (List.mem_singleton.mpr rfl))

/-- A byte in the pages of a segment is what it was before, with the segment's bytes of the file
copied over it. -/
theorem mem_of_has {table : Range} {m : Mem} (honest : Honest u)
    (run : u.held = (segments bytes).foldl (loadOne bytes) ⟨m, s.pages, s.pools ++ [table]⟩)
    (hm : ∀ x, ¬ table.Has x → m x = s.mem x) (inPages : ∀ h ∈ segments bytes, InPages h)
    {h : Elf64Phdr} (mem : h ∈ segments bytes) {x : Nat} (has : (pagesOf h).Has x) :
    u.mem x = s.mem.copy h.pPaddr (bytesAt bytes h.pOffset h.pFilesz) x := by
  obtain ⟨separate, hseparate⟩ := honest.separate run
  show u.held.mem x = _
  rw [run, foldl_loadOne_of_has separate inPages mem has]
  show m.copy _ _ x = _
  unfold Mem.copy
  rw [hm x (hseparate h mem x has)]

theorem drop_pages {table : Range} {m : Mem}
    (run : u.held = (segments bytes).foldl (loadOne bytes) ⟨m, s.pages, s.pools ++ [table]⟩) :
    u.pages.drop s.pages.length = (segments bytes).map pagesOf := by
  show u.held.pages.drop _ = _
  rw [run, foldl_loadOne_pages]
  exact List.drop_left

/-- Segments that fit are loaded. -/
theorem allLoaded_of_fits (hfile : fw.volume file.name = bytes)
    (returned : loadKernelIntoMemory fw (some file) s = .ok (some entry, u)) (honest : Honest u)
    (fits : Fits bytes s.mem) : AllLoaded bytes s u := by
  obtain ⟨table, htable, hrun⟩ := loadKernelIntoMemory_held hfile fits.elf returned
  have inPages : ∀ h ∈ segments bytes, InPages h := fun h mem => (fits.segment h mem).filesz_le
  have clear : ∀ h ∈ segments bytes, pagesOf h ∈ u.pages → ∀ x, table.Has x →
      x < h.pPaddr ∨ h.pPaddr + h.pFilesz ≤ x := by
    intro h mem allocated x has
    apply outside_of_not_has (inPages h mem)
    intro has'
    rw [Honest, List.pairwise_append] at honest
    exact honest.2.2 _ allocated _ htable x has' has
  obtain ⟨m, hm, run⟩ := hrun clear
  intro h mem
  have fit := fits.segment h mem
  rw [drop_pages run]
  have own : ∀ i, i < PAGE_SZ * numOfPages h.pFilesz → (pagesOf h).Has (h.pPaddr + i) :=
    fun i hi => ⟨Nat.le_add_right _ _, Nat.add_lt_add_left hi _⟩
  refine ⟨?_, ?_, ?_⟩
  · intro i hi
    exact ⟨pagesOf h, List.mem_map_of_mem mem, own i (Nat.lt_of_lt_of_le hi fit.memsz_le)⟩
  · intro i hi
    have hwhole : h.pOffset + h.pFilesz ≤ bytes.length :=
      fit.whole.resolve_left (Nat.ne_zero_of_lt hi)
    have hsmall := fits.elf.size_lt
    have hbyte : bytes[h.pOffset + i]? = some bytes[h.pOffset + i] :=
      List.getElem?_eq_getElem (by omega)
    rw [hbyte, mem_of_has honest run hm inPages mem (own i (Nat.lt_of_lt_of_le hi fit.filesz_le))]
    congr 1
    symm
    apply Mem.copy_apply
    rw [getElem?_bytesAt (by omega) hi, hbyte]
  · intro i hi hi'
    have hlength := length_bytesAt_le bytes h.pOffset h.pFilesz
    rw [mem_of_has honest run hm inPages mem (own i (Nat.lt_of_lt_of_le hi' fit.memsz_le)),
      Mem.copy_of_outside (by omega)]
    exact fit.zero i hi hi'

/-- Segments that are where the format says they may be fit if they were loaded. -/
theorem fits_of_allLoaded (hfile : fw.volume file.name = bytes)
    (returned : loadKernelIntoMemory fw (some file) s = .ok (some entry, u)) (honest : Honest u)
    (regular : Regular bytes) (clear : ∀ r ∈ u.pools, Clear (segments bytes) r)
    (loaded : AllLoaded bytes s u) : Fits bytes s.mem := by
  obtain ⟨table, htable, hrun⟩ := loadKernelIntoMemory_held hfile regular.elf returned
  obtain ⟨m, hm, run⟩ := hrun fun h mem _ => clear table htable h mem
  have memsz_le : ∀ h ∈ segments bytes, h.pMemsz ≤ PAGE_SZ * numOfPages h.pFilesz := by
    intro h mem
    have covered := (loaded h mem).covered
    rw [drop_pages run] at covered
    exact memsz_le_of_covered regular.beside regular.filesz_le mem covered
  have inPages : ∀ h ∈ segments bytes, InPages h :=
    fun h mem => Nat.le_trans (regular.filesz_le h mem) (memsz_le h mem)
  refine ⟨regular.elf, fun h mem => ⟨?_, inPages h mem, memsz_le h mem, ?_⟩⟩
  · rcases Nat.eq_zero_or_pos h.pFilesz with hzero | hpos
    · exact .inl hzero
    · right
      have last := (loaded h mem).content (h.pFilesz - 1) (by omega)
      obtain ⟨lt, _⟩ := List.getElem?_eq_some_iff.mp last
      omega
  · intro i hi hi'
    have hlength := length_bytesAt_le bytes h.pOffset h.pFilesz
    have has : (pagesOf h).Has (h.pPaddr + i) :=
      ⟨Nat.le_add_right _ _, Nat.add_lt_add_left (Nat.lt_of_lt_of_le hi' (memsz_le h mem)) _⟩
    have zero := (loaded h mem).zeroed i hi hi'
    rw [mem_of_has honest run hm inPages mem has, Mem.copy_of_outside (by omega)] at zero
    exact zero

end Loaded

/-- Whenever the loader returns an entry point, on a firmware that hands out no memory twice: if the
file is an ELF file whose segments fit, they are loaded; and for a file with segments where the
format says they may be, none of them read over memory that was handed out otherwise, they are
loaded exactly when they fit. -/
theorem kernel_loaded (fw : Firmware) (file : EfiFile) (s u : Efi) (entry : Nat)
    (returned : loadKernelIntoMemory fw (some file) s = .ok (some entry, u)) (honest : Honest u) :
    (Fits (fw.volume file.name) s.mem → AllLoaded (fw.volume file.name) s u) ∧
      (Regular (fw.volume file.name) →
        (∀ r ∈ u.pools, Clear (segments (fw.volume file.name)) r) →
        (AllLoaded (fw.volume file.name) s u ↔ Fits (fw.volume file.name) s.mem)) := by
  have enough := allLoaded_of_fits rfl returned honest
  refine ⟨enough, fun regular clear => ⟨?_, enough⟩⟩
  exact fits_of_allLoaded rfl returned honest regular clear

/-- A kernel with one segment, of four bytes in the file and eight in memory. -/
def smallKernel : List Byte :=
  ELFMAG ++ [2, 1, 1] ++ .replicate 9 0 ++ [2, 0, 62, 0, 1, 0, 0, 0] ++
    [0, 0, 16, 0, 0, 0, 0, 0] ++ [64, 0, 0, 0, 0, 0, 0, 0] ++ .replicate 14 0 ++
    [56, 0, 1, 0, 0, 0, 0, 0, 0, 0] ++
  [1, 0, 0, 0, 7, 0, 0, 0] ++ [120, 0, 0, 0, 0, 0, 0, 0] ++ .replicate 8 0 ++
    [0, 0, 16, 0, 0, 0, 0, 0] ++ [4, 0, 0, 0, 0, 0, 0, 0] ++ [8, 0, 0, 0, 0, 0, 0, 0] ++
    .replicate 8 0 ++
  [0xeb, 0xfe, 0x90, 0x90]

/-- A firmware with that kernel, where every call succeeds. -/
def smallFirmware : Firmware where
  status := fun _ => EFI_SUCCESS
  pool := fun n => 0x10000 * (n + 1)
  memoryMap := fun _ => []
  mapKey := fun _ => 0
  descriptorSize := fun _ => 48
  volume := fun _ => smallKernel
  mode := ⟨0, 0, 0, 0, 0⟩
  configurationTable := []
  stack := fun _ => 0

def smallSegment : Elf64Phdr where
  pType := PT_LOAD
  pOffset := 120
  pPaddr := 0x100000
  pFilesz := 4
  pMemsz := 8

theorem segments_smallKernel : segments smallKernel = [smallSegment] := by decide +kernel

theorem isElf_smallKernel : IsElf smallKernel where
  size_lt := by decide +kernel
  header_le := by decide +kernel
  stride_ge := by decide +kernel
  table_le := by decide +kernel

theorem fits_smallKernel : Fits smallKernel fun _ => 0 := by
  refine ⟨isElf_smallKernel, fun h mem => ?_⟩
  rw [segments_smallKernel, List.mem_singleton] at mem
  subst mem
  exact ⟨.inr (by decide +kernel), by decide, by decide, fun _ _ _ => rfl⟩

/-- The pages and the table of that kernel are apart. -/
theorem small_honest {u : Efi} (pages : u.pages = [⟨0x100000, 0x1000⟩])
    (pools : u.pools = [⟨0x30000, 56⟩]) : Honest u := by
  rw [Honest, pages, pools]
  refine List.pairwise_pair.mpr ?_
  rintro x ⟨hlo, _⟩ ⟨_, hhi⟩
  change 0x100000 ≤ x at hlo
  change x < 0x30000 + 56 at hhi
  omega

/-- What is seen of the end of the loader: the entry point, what was handed out, and the first byte
after those of the file. -/
def seen : Except Stop (Option Nat × Efi) → Option (Nat × List Range × List Range × Byte)
  | .ok (some entry, u) => some (entry, u.pages, u.pools, u.mem 0x100004)
  | _ => none

theorem of_seen {r : Except Stop (Option Nat × Efi)} {entry : Nat} {pages pools : List Range}
    {b : Byte} (h : seen r = some (entry, pages, pools, b)) :
    ∃ u, r = .ok (some entry, u) ∧ u.pages = pages ∧ u.pools = pools ∧ u.mem 0x100004 = b := by
  rcases r with e | ⟨ret, u⟩
  · cases h
  · cases ret with
    | none => cases h
    | some entry' =>
      cases h
      exact ⟨u, rfl, rfl, rfl, rfl⟩

/-- On memory that is zero the kernel is loaded. -/
theorem small_kernel_loaded :
    ∃ u, loadKernelIntoMemory smallFirmware (some ⟨"kernel.elf"⟩) (.start fun _ => 0) =
        .ok (some 0x100000, u) ∧
      AllLoaded smallKernel (.start fun _ => 0) u := by
  have hseen : seen (loadKernelIntoMemory smallFirmware (some ⟨"kernel.elf"⟩)
      (.start fun _ => 0)) =
        some (0x100000, [⟨0x100000, 0x1000⟩], [⟨0x30000, 56⟩], 0) := by decide +kernel
  obtain ⟨u, returned, pages, pools, _⟩ := of_seen hseen
  have honest : Honest u := small_honest pages pools
  exact ⟨u, returned, (kernel_loaded _ _ _ u _ returned honest).1 fits_smallKernel⟩

/-- On memory that is not, the bytes after those of the file are what they were. -/
theorem small_bss_not_zeroed :
    ∃ u, loadKernelIntoMemory smallFirmware (some ⟨"kernel.elf"⟩) (.start fun _ => 0xaf) =
        .ok (some 0x100000, u) ∧
      Honest u ∧ ¬ AllLoaded smallKernel (.start fun _ => 0xaf) u := by
  have hseen : seen (loadKernelIntoMemory smallFirmware (some ⟨"kernel.elf"⟩)
      (.start fun _ => 0xaf)) =
        some (0x100000, [⟨0x100000, 0x1000⟩], [⟨0x30000, 56⟩], 0xaf) := by decide +kernel
  obtain ⟨u, returned, pages, pools, left⟩ := of_seen hseen
  refine ⟨u, returned, small_honest pages pools, fun loaded => ?_⟩
  have mem : smallSegment ∈ segments smallKernel := by
    rw [segments_smallKernel]
    exact List.mem_singleton.mpr rfl
  have zero := (loaded smallSegment mem).zeroed 4 (by decide) (by decide)
  have byte : u.mem 0x100004 = 0 := zero
  rw [left] at byte
  exact absurd byte (by decide)

end PrintOS.Bootloader
