import PrintOS.Laws.Bootloader.SegmentPages

/-!
# The check of the ELF header

The loader should go on to the program headers exactly when the file starts as an ELF file for this
machine does (`IsKernelElf`). It refuses the header when `verify_kernel_elf_header` accepts it, and
that function does not look for the magic number in the header: it takes the first byte of the
header for an address, and looks there. So the loader does what it should exactly when the other
fields are right and the magic number is either in the header or at that address, not in both
(`header_checked_iff`).
-/

namespace PrintOS.Bootloader

open ByteMemory (Mem Byte)
open Program

/-! ## Headers -/

/-- The fields of the header after its magic number. -/
structure KernelFields (eHdr : Elf64Ehdr) : Prop where
  eiClass : eHdr.eiClass = ELFCLASS64
  eiData : eHdr.eiData = ELFDATA2LSB
  eType : eHdr.eType = ET_EXEC
  eMachine : eHdr.eMachine = EM_X86_64
  eVersion : eHdr.eVersion = EV_CURRENT

/-- The file starts as that of a kernel does. -/
def IsKernelElf (file : List Byte) : Prop :=
  Mem.HoldsAt (bytesOf file) 0 ELFMAG ∧ KernelFields (elfHeader file)

theorem memcmp_eq_zero {m : Mem} {a : Nat} {bytes : List Byte} :
    memcmp m a bytes = 0 ↔ Mem.HoldsAt m a bytes := by
  induction bytes generalizing a with
  | nil => exact iff_of_true rfl fun i b h => absurd h (by simp)
  | cons b bytes ih =>
    rw [Mem.holdsAt_cons, ← ih, memcmp]
    split_ifs with less greater
    · exact iff_of_false (by decide) fun h => BitVec.ne_of_lt less h.1
    · exact iff_of_false (by decide) fun h => BitVec.ne_of_lt greater h.1.symm
    · have same : m a = b := BitVec.le_antisymm (BitVec.not_lt.mp greater) (BitVec.not_lt.mp less)
      exact ⟨fun h => ⟨same, h⟩, fun h => h.2⟩

/-- What `verify_kernel_elf_header` accepts. -/
theorem verifyKernelElfHeader_iff {m : Mem} {eHdr : Elf64Ehdr} :
    verifyKernelElfHeader m eHdr = true ↔ Mem.HoldsAt m eHdr.eiMag0 ELFMAG ∧ KernelFields eHdr := by
  simp only [verifyKernelElfHeader, Bool.and_eq_true, beq_iff_eq, memcmp_eq_zero]
  constructor
  · rintro ⟨⟨⟨⟨⟨magic, hclass⟩, hdata⟩, htype⟩, hmachine⟩, hversion⟩
    exact ⟨magic, hclass, hdata, htype, hmachine, hversion⟩
  · rintro ⟨magic, hclass, hdata, htype, hmachine, hversion⟩
    exact ⟨⟨⟨⟨⟨magic, hclass⟩, hdata⟩, htype⟩, hmachine⟩, hversion⟩

/-! ## How far the loader goes -/

section Calls

variable {fw : Firmware} {E : Stop → Prop} {s : Efi} {file : EfiFile}

/-- The two calls that the header is read with. -/
def headerCalls (file : EfiFile) : List (Call × EfiStatus) :=
  [(.setPosition file 0, EFI_SUCCESS), (.read file EHDR_SZ, EFI_SUCCESS)]

theorem getElfHeader_reads (whole : EHDR_SZ ≤ (fw.volume file.name).length)
    (seeks : fw.status s.calls.length = EFI_SUCCESS)
    (reads : fw.status (s.calls.length + 1) = EFI_SUCCESS) :
    wp (getElfHeader fw (some file)) E (fun r t =>
      r = (EFI_SUCCESS, elfHeader (fw.volume file.name)) ∧ t.held = s.held ∧
        t.calls = s.calls ++ headerCalls file) s := by
  have calls : wp (getElfHeader fw (some file)) E (fun r t => r.1 = EFI_SUCCESS ∧
      t.calls = s.calls ++ headerCalls file) s := by
    rw [getElfHeader, wp_deref, wp_bind]
    apply setPosition_spec
    intro t ht _
    rw [seeks] at ht ⊢
    have reads' : fw.status t.calls.length = EFI_SUCCESS := by
      rw [ht, List.length_append]
      exact reads
    rw [wp_ite]
    refine ⟨fun failed => absurd rfl failed, fun _ => ?_⟩
    rw [wp_bind]
    apply readBytes_spec
    intro u hu _
    rw [reads', ht, List.append_assoc] at hu
    rw [wp_bind]
    apply report_spec
    intro v hv _
    exact ⟨reads', hv.trans hu⟩
  apply wp_mono (wp_and calls getElfHeader_held)
  rintro ⟨status, eHdr⟩ t ⟨⟨done, hcalls⟩, held⟩
  obtain ⟨hheld, heHdr⟩ := held done
  refine ⟨Prod.ext done ?_, hheld, hcalls⟩
  rw [← header_eq whole fw.stack]
  exact heHdr

/-- The loop ends, with more calls made. -/
theorem loadSegments_extends (stride left addr : Nat) :
    wp (loadSegments fw (some file) stride left (some addr)) E
      (fun _ t => s.calls <+: t.calls) s := by
  induction left generalizing addr s with
  | zero => exact List.prefix_rfl
  | succ left ih =>
    rw [loadSegments, wp_deref, wp_bind, wp_get, wp_bind]
    have turn : wp (loadPHdr fw (some file) (.ofMem s.mem addr)) E
        (fun _ t => s.calls <+: t.calls) s := by
      unfold loadPHdr
      split_ifs
      · apply wp_mono (loadElfSegmentByPHdr_answers _)
        rintro status t ⟨log, hlog, -⟩
        exact hlog ▸ List.prefix_append _ _
      · exact List.prefix_rfl
    apply wp_mono turn
    intro status t ht
    rw [wp_ite]
    refine ⟨fun _ => ht, fun _ => ?_⟩
    exact wp_mono (ih (addr + stride)) fun _ u hu => ht.trans hu

/-- Reading the program headers starts with memory for them. -/
theorem getElfPHdrs_extends (eHdr : Elf64Ehdr) :
    wp (getElfPHdrs fw (some file) eHdr) E (fun _ t =>
      ∃ status, s.calls ++ [(.allocatePool (allPHdrsSz eHdr), status)] <+: t.calls) s := by
  rw [getElfPHdrs, wp_bind]
  apply allocatePool_spec
  intro t ht _
  have start : s.calls ++ [(.allocatePool (allPHdrsSz eHdr), fw.status s.calls.length)] <+: t.calls :=
    ht ▸ List.prefix_rfl
  rw [wp_ite]
  refine ⟨fun _ => ⟨_, start⟩, fun done => ?_⟩
  rw [wp_deref, wp_bind]
  apply setPosition_spec
  intro u hu _
  have more : t.calls <+: u.calls := hu ▸ List.prefix_append _ _
  rw [wp_ite]
  refine ⟨fun _ => ⟨_, start.trans more⟩, fun _ => ?_⟩
  rw [if_pos (not_not.mp done), wp_deref, wp_bind]
  apply read_spec
  intro v hv _
  have more' : u.calls <+: v.calls := hv ▸ List.prefix_append _ _
  rw [wp_ite]
  exact ⟨fun _ => ⟨_, start.trans (more.trans more')⟩,
    fun _ => ⟨_, start.trans (more.trans more')⟩⟩

/-- The loader ends. It stops at a header that `verify_kernel_elf_header` accepts, and goes on with
any other one. -/
theorem loadKernelIntoMemory_goes (whole : EHDR_SZ ≤ (fw.volume file.name).length)
    (seeks : fw.status s.calls.length = EFI_SUCCESS)
    (reads : fw.status (s.calls.length + 1) = EFI_SUCCESS) :
    wp (loadKernelIntoMemory fw (some file)) E (fun entry t =>
      if verifyKernelElfHeader s.mem (elfHeader (fw.volume file.name)) then
        entry = none ∧ t.held = s.held ∧ t.calls = s.calls ++ headerCalls file
      else ∃ size status,
        s.calls ++ headerCalls file ++ [(.allocatePool size, status)] <+: t.calls) s := by
  rw [loadKernelIntoMemory, wp_bind]
  apply wp_mono (getElfHeader_reads whole seeks reads)
  rintro _ t ⟨rfl, held, calls⟩
  have hmem : t.mem = s.mem := congrArg Held.mem held
  rw [wp_ite]
  refine ⟨fun failed => absurd rfl failed, fun _ => ?_⟩
  rw [wp_bind, wp_get, hmem]
  by_cases rejected : verifyKernelElfHeader s.mem (elfHeader (fw.volume file.name)) = true
  · simp only [if_pos rejected]
    exact ⟨rfl, held, calls⟩
  · simp only [if_neg rejected]
    rw [wp_bind]
    apply wp_mono (wp_and (getElfPHdrs_extends _) (getElfPHdrs_held _))
    rintro ⟨status, pHdrs⟩ u ⟨⟨pool, start⟩, table⟩
    rw [calls] at start
    rw [wp_ite]
    refine ⟨fun _ => ⟨_, pool, start⟩, fun done => ?_⟩
    obtain ⟨buffer, rfl, -⟩ := table (not_not.mp done)
    rw [wp_bind]
    apply wp_mono (loadSegments_extends _ _ _)
    intro all v more
    cases all with
    | false => exact ⟨_, pool, start.trans more⟩
    | true => exact ⟨_, pool, start.trans more⟩

end Calls

/-- The loader asked for memory for program headers. -/
def ReadsPHdrs (s t : Efi) : Prop :=
  ∃ size status, (Call.allocatePool size, status) ∈ t.calls.drop s.calls.length

/-- **The loader takes the right headers exactly when** the fields after the magic number are right,
and the magic number is either at the start of the file or in memory at the address that is the
first byte of the file, and not in both places. The loader ends in any case, once the header is
read. -/
theorem header_checked_iff (fw : Firmware) (file : EfiFile) (s : Efi)
    (whole : EHDR_SZ ≤ (fw.volume file.name).length)
    (seeks : fw.status s.calls.length = EFI_SUCCESS)
    (reads : fw.status (s.calls.length + 1) = EFI_SUCCESS) :
    ∃ entry u, loadKernelIntoMemory fw (some file) s = .ok (entry, u) ∧
      (((ReadsPHdrs s u ↔ IsKernelElf (fw.volume file.name)) ∧
          (¬ IsKernelElf (fw.volume file.name) → entry = none ∧ u.held = s.held)) ↔
        KernelFields (elfHeader (fw.volume file.name)) ∧
          (Mem.HoldsAt s.mem (elfHeader (fw.volume file.name)).eiMag0 ELFMAG ↔
            ¬ Mem.HoldsAt (bytesOf (fw.volume file.name)) 0 ELFMAG)) := by
  have goes : wp (loadKernelIntoMemory fw (some file)) (fun _ => False) _ s :=
    loadKernelIntoMemory_goes whole seeks reads
  obtain ⟨entry, u, ended, goes⟩ := exists_of_wp goes
  refine ⟨entry, u, ended, ?_⟩
  have hverify := @verifyKernelElfHeader_iff s.mem (elfHeader (fw.volume file.name))
  by_cases rejected : verifyKernelElfHeader s.mem (elfHeader (fw.volume file.name)) = true
  · rw [if_pos rejected] at goes
    obtain ⟨none, held, calls⟩ := goes
    have stops : ¬ ReadsPHdrs s u := by
      rintro ⟨size, status, mem⟩
      rw [calls, List.drop_left] at mem
      simp [headerCalls] at mem
    obtain ⟨magic, fields⟩ := hverify.mp rejected
    simp only [IsKernelElf, iff_false_left stops, none, held, and_self, implies_true, and_true,
      fields, magic, true_iff, true_and]
  · rw [if_neg rejected] at goes
    obtain ⟨size, status, start⟩ := goes
    have goesOn : ReadsPHdrs s u := by
      obtain ⟨more, hmore⟩ := start
      refine ⟨size, status, ?_⟩
      rw [← hmore, List.append_assoc, List.append_assoc, List.drop_left]
      simp
    rw [hverify, not_and] at rejected
    simp only [goesOn, true_iff, IsKernelElf]
    constructor
    · rintro ⟨⟨magic, fields⟩, -⟩
      exact ⟨fields, iff_of_false (fun h => rejected h fields) (not_not.mpr magic)⟩
    · rintro ⟨fields, one⟩
      have magic : Mem.HoldsAt (bytesOf (fw.volume file.name)) 0 ELFMAG := by
        by_contra none
        exact rejected (one.mpr none) fields
      exact ⟨⟨magic, fields⟩, fun h => absurd ⟨magic, fields⟩ h⟩

theorem isKernelElf_smallKernel : Mem.HoldsAt (bytesOf smallKernel) 0 ELFMAG ∧
    KernelFields (elfHeader smallKernel) := by
  rw [← memcmp_eq_zero]
  exact ⟨by decide +kernel, by decide +kernel, by decide +kernel, by decide +kernel,
    by decide +kernel, by decide +kernel⟩

/-- A kernel is read, on memory that does not hold the magic number at `0x7f`. -/
theorem small_header_checked : ∃ entry u,
    loadKernelIntoMemory smallFirmware (some ⟨"kernel.elf"⟩) (.start fun _ => 0) = .ok (entry, u) ∧
      ReadsPHdrs (.start fun _ => 0) u := by
  obtain ⟨magic, fields⟩ := isKernelElf_smallKernel
  have absent : ¬ Mem.HoldsAt (fun _ => 0) (elfHeader smallKernel).eiMag0 ELFMAG :=
    fun h => absurd (h 0 0x7f rfl) (by decide)
  obtain ⟨entry, u, ended, checked⟩ := header_checked_iff smallFirmware ⟨"kernel.elf"⟩
    (.start fun _ => 0) (by decide +kernel) rfl rfl
  have right := checked.mpr ⟨fields, iff_of_false absent (not_not.mpr magic)⟩
  exact ⟨entry, u, ended, right.1.mpr ⟨magic, fields⟩⟩

/-- The kernel with its first byte changed. -/
def noKernel : List Byte := smallKernel.set 0 0

def noKernelFirmware : Firmware := { smallFirmware with volume := fun _ => noKernel }

/-- A file that is no ELF file is read on, and loaded. -/
theorem bad_magic_accepted : ¬ IsKernelElf (noKernelFirmware.volume "kernel.elf") ∧
    ∃ u, loadKernelIntoMemory noKernelFirmware (some ⟨"kernel.elf"⟩) (.start fun _ => 0) =
        .ok (some 0x100000, u) ∧
      ReadsPHdrs (.start fun _ => 0) u ∧ u.pages = [⟨0x100000, 0x1000⟩] := by
  refine ⟨?_, ?_⟩
  · rintro ⟨magic, -⟩
    exact absurd (magic 0 0x7f rfl) (by decide +kernel)
  · obtain ⟨⟨entry, u⟩, ended, heq⟩ : ∃ r, loadKernelIntoMemory noKernelFirmware
        (some ⟨"kernel.elf"⟩) (.start fun _ => 0) = .ok r ∧
          (r.1, r.2.pages, r.2.calls[2]?) =
            (some 0x100000, [⟨0x100000, 0x1000⟩], some (.allocatePool 56, EFI_SUCCESS)) := by
      apply Except.ok_of_toOption_map
      decide +kernel
    simp only [Prod.mk.injEq] at heq
    obtain ⟨rfl, pages, third⟩ := heq
    exact ⟨u, ended, ⟨56, EFI_SUCCESS, List.mem_of_getElem? third⟩, pages⟩

end PrintOS.Bootloader
