import PrintOS.Laws.Memory.IdentityPaging
import PrintOS.Memory.PagingInit

/-!
# The pages that `init` maps

Every call of `__identity_paging` is a run of `allocate_page` calls, so `init` is one run, with the
call for the HPET at its end (`run_init`). What that call leaves is then known from what is known of
runs.

The size that the call is given adds up the widths of the registers, and leaves out the gaps between
them. It is below that of a page for every number of comparators, so the loop has one turn, for the
page of the base (`mapsToItself_iff`). The registers go on to the next page where the base is at the
end of its own and there are many comparators (`registers_mapped_iff`).
-/

namespace PrintOS

open ByteMemory (Mem)

/-! ## The registers -/

namespace Hpet

variable {h : Hpet}

/-- The registers that are read or written: three general ones, and two of each comparator. -/
def Accessed (h : Hpet) (r : Nat) : Prop :=
  (∃ reg ∈ [CAP_REG, CONFIG_REG, COUNTER_REG], r = u64 (h.baseAddress + reg)) ∨
    ∃ id < h.getNoComparators, ∃ reg ∈ [CONFIG, COMPAR], r = h.getComparRegPtr id reg

theorem getNoComparators_le (h : Hpet) : h.getNoComparators ≤ 32 := by
  have hfield : numTimCap (h.readReg CAP_REG) < 2 ^ 5 := Nat.mod_lt _ (by decide)
  rw [getNoComparators]
  omega

theorem getMmioSz_eq (h : Hpet) : h.getMmioSz = 64 + 32 * h.getNoComparators := by
  have hle := h.getNoComparators_le
  rw [getMmioSz, u32_of_lt (by omega)]
  omega

/-- The loop of `__identity_paging` has one turn. -/
theorem getMmioSz_turns (h : Hpet) : h.getMmioSz / (PAGE_SZ + 1) = 0 := by
  have hle := h.getNoComparators_le
  rw [getMmioSz_eq, Nat.div_eq_of_lt]
  simp only [PAGE_SZ, FRAME_SZ]
  omega

/-- Where the accessed registers are, counted from the base. -/
theorem Accessed.offset {r : Nat} (accessed : h.Accessed r) : ∃ off, r = u64 (h.baseAddress + off) ∧
    (off ≤ 0xf0 ∨ ∃ id < h.getNoComparators, off ≤ 0x108 + 32 * id) := by
  obtain ⟨reg, hreg, rfl⟩ | ⟨id, hid, reg, hreg, rfl⟩ := accessed
  · refine ⟨reg, rfl, .inl ?_⟩
    simp only [CAP_REG, CONFIG_REG, COUNTER_REG, List.mem_cons, List.not_mem_nil, or_false] at hreg
    omega
  · refine ⟨FIRST_OFF + MMIO_SZ * id + reg, ?_, .inr ⟨id, hid, ?_⟩⟩
    · rw [getComparRegPtr, ← Nat.add_assoc, ← Nat.add_assoc]
    · simp only [CONFIG, COMPAR, List.mem_cons, List.not_mem_nil, or_false] at hreg
      simp only [FIRST_OFF, MMIO_SZ]
      omega

/-- An accessed register that begins on the page of the base ends on it. -/
theorem Accessed.lt {r : Nat} (accessed : h.Accessed r) (haligned : h.baseAddress % 1024 = 0)
    (low : h.baseAddress < 2 ^ 44)
    (few : h.baseAddress % PAGE_SZ = 3072 → h.getNoComparators ≤ 24) :
    h.baseAddress ≤ r ∧ h.baseAddress % PAGE_SZ + (r - h.baseAddress) + 8 ≤ PAGE_SZ := by
  have hle := h.getNoComparators_le
  obtain ⟨off, rfl, hoff⟩ := accessed.offset
  have hsmall : off ≤ 0x108 + 32 * 31 := by
    rcases hoff with hoff | ⟨id, hid, hoff⟩ <;> omega
  rw [u64_of_lt (by omega)]
  simp only [PAGE_SZ, FRAME_SZ] at few ⊢
  rcases hoff with hoff | ⟨id, hid, hoff⟩ <;> omega

end Hpet

namespace Paging

/-! ## The calls of `init` -/

section Init

variable {σ : Type} {requestFrame : σ → Except Fault (Nat × σ)} {PML4 : Nat} {s t u : State σ}
variable {kernel : KernelData} {mem : Mem} {pmem : σ}

theorem run_mapSegments {descs : List EfiMMapDesc}
    (ok : mapSegments requestFrame PML4 descs s = .ok t) :
    ∃ calls, Run (step requestFrame PML4) (fun _ _ => True) s calls t := by
  induction descs generalizing s with
  | nil =>
    cases ok
    exact ⟨[], .nil _⟩
  | cons desc rest ih =>
    obtain ⟨u, hfirst, hrest⟩ := Except.bind_eq_ok.mp ok
    obtain ⟨calls, run⟩ := ih hrest
    exact ⟨_, (run_identityFrom hfirst).append run⟩

/-- A completed `init` is a run of calls and then the call for the HPET. -/
theorem run_init (ok : init requestFrame PML4 kernel s = .ok t) :
    ∃ calls u, Run (step requestFrame PML4) (fun _ _ => True) s calls u ∧
      identityPaging requestFrame PML4 kernel.hpet.baseAddress kernel.hpet.getMmioSz u = .ok t := by
  obtain ⟨s₁, hsegments, ok⟩ := Except.bind_eq_ok.mp ok
  obtain ⟨s₂, hframebuffer, ok⟩ := Except.bind_eq_ok.mp ok
  obtain ⟨s₃, hlapic, ok⟩ := Except.bind_eq_ok.mp ok
  obtain ⟨u, hioapic, ok⟩ := Except.bind_eq_ok.mp ok
  obtain ⟨calls, run⟩ := run_mapSegments hsegments
  exact ⟨_, u, ((run.append (run_identityFrom hframebuffer)).append
    (run_identityFrom hlapic)).append (run_identityFrom hioapic), ok⟩

/-- From a PML4 of zeroes on, the tables before the call for the HPET. -/
theorem init_ok (haligned : PML4 % PAGE_SZ = 0)
    (zero : ∀ x, PML4 ≤ x → x < PML4 + PAGE_SZ → mem x = 0)
    (ok : init requestFrame PML4 kernel ⟨mem, pmem, []⟩ = .ok t) (fresh : Fresh PML4 t.taken) :
    ∃ u paths, Tables PML4 u.mem u.taken paths ∧
      identityPaging requestFrame PML4 kernel.hpet.baseAddress kernel.hpet.getMmioSz u = .ok t := by
  obtain ⟨calls, u, run, okHpet⟩ := run_init ok
  obtain ⟨more, htaken⟩ := taken_of_run (run_identityFrom okHpet)
  obtain ⟨tables, -⟩ := tables_zero haligned zero
  obtain ⟨⟨paths, tables'⟩, -, -⟩ := lookup_of_run run (Fresh.of_append (htaken ▸ fresh)) tables
  exact ⟨u, paths, tables', okHpet⟩

/-- The constructor clears the PML4. -/
theorem memset_cleared (x : Nat) (hx : PML4 ≤ x) (hx' : x < PML4 + PAGE_SZ) :
    memset mem PML4 0 (8 * 512) x = 0 :=
  (Mem.fill_apply _ mem).trans (if_pos ⟨hx, hx'⟩)

/-! ## The call for the HPET -/

/-- A call of `__identity_paging` has mapped the page of an address to itself: one of its turns was
for the page, and the page's entry holds the address's own frame. -/
structure MapsToItself (PML4 addr n : Nat) (m : Mem) (b : Nat) : Prop where
  turn : ∃ call ∈ identityCalls (n / (PAGE_SZ + 1) + 1) addr, path call.1 = path b
  identity : Identity PML4 m b

/-- One turn maps to themselves the addresses on the page of the first one, where the number of the
page is not too large for an entry. -/
theorem mapsToItself_iff {addr n b : Nat} {paths : Nat → Option (List Nat)}
    (tables : Tables PML4 s.mem s.taken paths) (hn : n / (PAGE_SZ + 1) = 0)
    (ok : identityPaging requestFrame PML4 addr n s = .ok t) (fresh : Fresh PML4 t.taken) :
    MapsToItself PML4 addr n t.mem b ↔
      pageNumber addr = pageNumber b ∧ addr / PAGE_SZ % 2 ^ 32 = b / PAGE_SZ := by
  have hcalls : identityCalls (n / (PAGE_SZ + 1) + 1) addr = [(addr, addr)] := by
    rw [hn]
    rfl
  obtain ⟨-, -, hlast⟩ := lookup_of_run (run_identityFrom ok) fresh tables
  -- what the only turn leaves for its page
  have hentry (hpage : path addr = path b) : ∃ e, lookup PML4 t.mem b = some e ∧ Maps e addr :=
    hlast b [] (addr, addr) [] hcalls hpage fun c hc => absurd hc List.not_mem_nil
  constructor
  · rintro ⟨⟨call, hcall, hpage⟩, e, he, hb⟩
    rw [hcalls, List.mem_singleton] at hcall
    subst hcall
    obtain ⟨e', he', hmaps⟩ := hentry hpage
    obtain rfl : e' = e := Option.some.inj (he'.symm.trans he)
    have hfield := hmaps.frame
    rw [hb, frameNumber_eq, frameNumber_eq] at hfield
    exact ⟨path_inj.mp hpage, hfield.symm⟩
  · rintro ⟨hpage, hnumber⟩
    obtain ⟨e, he, hmaps⟩ := hentry (path_inj.mpr hpage)
    refine ⟨⟨(addr, addr), ?_, path_inj.mpr hpage⟩, e, he, ?_⟩
    · rw [hcalls]
      exact List.mem_singleton_self _
    · rw [hmaps.frame, frameNumber_eq, frameNumber_eq, hnumber]

/-- **When `init` maps the registers of the HPET.** From a cleared PML4 and with fresh table frames:
after a completed `init` every byte of every register that is accessed is on a page that the call
for the HPET mapped to itself exactly when the base is below 2^44 and, where it is in the last
quarter of its page, there are no more than 24 comparators. -/
theorem registers_mapped_iff (haligned : PML4 % PAGE_SZ = 0)
    (hbase : kernel.hpet.baseAddress % 1024 = 0) (hlt : kernel.hpet.baseAddress < 2 ^ 64)
    (ok : construct requestFrame PML4 kernel mem pmem = .ok t) (fresh : Fresh PML4 t.taken) :
    (∀ r, kernel.hpet.Accessed r → ∀ i < 8,
        MapsToItself PML4 kernel.hpet.baseAddress kernel.hpet.getMmioSz t.mem (r + i)) ↔
      kernel.hpet.baseAddress < 2 ^ 44 ∧
        (kernel.hpet.baseAddress % PAGE_SZ = 3072 → kernel.hpet.getNoComparators ≤ 24) := by
  obtain ⟨u, paths, tables, okHpet⟩ := init_ok haligned memset_cleared ok fresh
  have hmaps (b : Nat) := mapsToItself_iff (b := b) tables kernel.hpet.getMmioSz_turns okHpet fresh
  constructor
  · intro all
    have low : kernel.hpet.baseAddress < 2 ^ 44 := by
      -- the capability register is at the base itself
      have hcap := all _ (.inl ⟨Hpet.CAP_REG, by decide, rfl⟩) 0 (by decide)
      have hnumber := ((hmaps _).mp hcap).2
      simp only [Hpet.CAP_REG, PAGE_SZ, FRAME_SZ, Nat.add_zero, u64_of_lt hlt] at hnumber
      omega
    refine ⟨low, fun hlast => ?_⟩
    by_contra hmany
    -- the registers of comparator 24 begin with the next page
    have hnext := all _ (.inr ⟨24, Nat.lt_of_not_le hmany, Hpet.CONFIG, by decide, rfl⟩) 0
      (by decide)
    have hnumber := ((hmaps _).mp hnext).2
    simp only [Hpet.getComparRegPtr, Hpet.FIRST_OFF, Hpet.MMIO_SZ, Hpet.CONFIG, Nat.add_zero]
      at hnumber
    rw [u64_of_lt (by omega)] at hnumber
    simp only [PAGE_SZ, FRAME_SZ] at hlast hnumber
    omega
  · rintro ⟨low, few⟩ r accessed i hi
    obtain ⟨hr, hpage⟩ := accessed.lt hbase low few
    simp only [PAGE_SZ, FRAME_SZ] at hpage
    refine (hmaps _).mpr ⟨?_, ?_⟩
    · simp only [pageNumber]
      omega
    · simp only [PAGE_SZ, FRAME_SZ]
      omega

end Init

/-- A machine with a segment of one page and a small framebuffer, for a base of the HPET and what is
in its capability register. -/
def machine (baseAddress capability : Nat) : KernelData where
  mmap := ⟨[⟨EfiMemoryType.conventionalMemory.code, 0x1000, 1⟩], by decide⟩
  framebuffer :=
    { bSize := 4096, width := 32, height := 32, pxPerScan := 32, bPerPx := 4,
      fbAddr := 0x80000000, doubleFbAddr := 0x2000 }
  lapicAddr := 0xfee00000
  ioApicAddr := 0xfec00000
  hpet := { baseAddress, mem := Mem.write64 (fun _ => 0) baseAddress capability, clkPeriodNs := 0 }

/-- The frames for its tables. -/
def frames : List Nat := [0x11000, 0x12000, 0x13000, 0x14000, 0x15000, 0x16000, 0x17000, 0x18000]

theorem fresh_frames : Fresh 0x10000 frames := ⟨by decide, by decide, by decide, by decide⟩

/-- A base at the start of a page. -/
theorem registers_mapped : ∃ t, construct tape 0x10000 (machine 0xfed00000 0x1f00) (fun _ => 0)
    frames = .ok t ∧ ∀ r, (machine 0xfed00000 0x1f00).hpet.Accessed r → ∀ i < 8,
      MapsToItself 0x10000 0xfed00000 (machine 0xfed00000 0x1f00).hpet.getMmioSz t.mem (r + i) := by
  obtain ⟨t, hok, htaken⟩ : ∃ t, construct tape 0x10000 (machine 0xfed00000 0x1f00) (fun _ => 0)
      frames = .ok t ∧ t.taken = frames := by
    apply Except.ok_of_toOption_map
    simp only [construct, init, machine, mapSegments, identityPaging, identityFrom, allocatePage,
      getOrCreate, memset_eq]
    decide +kernel
  have fresh : Fresh 0x10000 t.taken := htaken ▸ fresh_frames
  exact ⟨t, hok, (registers_mapped_iff (by decide) (by decide) (by decide) hok fresh).mpr
    ⟨by decide, fun hlast => absurd hlast (by decide)⟩⟩

/-- A base in the last quarter of a page: of 32 comparators the last ones are on a page that is not
mapped. -/
theorem last_comparators_not_mapped : ∃ t, construct tape 0x10000 (machine 0xfed00c00 0x1f00)
    (fun _ => 0) frames = .ok t ∧ Fresh 0x10000 t.taken ∧
      ¬ ∀ r, (machine 0xfed00c00 0x1f00).hpet.Accessed r → ∀ i < 8, MapsToItself 0x10000 0xfed00c00
        (machine 0xfed00c00 0x1f00).hpet.getMmioSz t.mem (r + i) := by
  obtain ⟨t, hok, ht⟩ : ∃ t, construct tape 0x10000 (machine 0xfed00c00 0x1f00) (fun _ => 0)
      frames = .ok t ∧ (t.taken, lookup 0x10000 t.mem 0xfed01000) = (frames, none) := by
    apply Except.ok_of_toOption_map
    simp only [construct, init, machine, mapSegments, identityPaging, identityFrom, allocatePage,
      getOrCreate, memset_eq]
    decide +kernel
  obtain ⟨htaken, hnone⟩ := Prod.mk.inj ht
  have hcount : (machine 0xfed00c00 0x1f00).hpet.getNoComparators = 32 := by decide +kernel
  have haddr : (machine 0xfed00c00 0x1f00).hpet.getComparRegPtr 24 Hpet.CONFIG + 0 =
      0xfed01000 := by
    decide +kernel
  refine ⟨t, hok, htaken ▸ fresh_frames, fun all => ?_⟩
  obtain ⟨-, e, he, -⟩ :=
    all _ (.inr ⟨24, by rw [hcount]; decide, Hpet.CONFIG, by decide, rfl⟩) 0 (by decide)
  rw [haddr, hnone] at he
  cases he

end Paging

end PrintOS
