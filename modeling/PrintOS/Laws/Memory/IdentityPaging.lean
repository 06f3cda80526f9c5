import PrintOS.Laws.Memory.Paging

/-!
# Identity paging

`__identity_paging` is to map every byte of a range to itself, the size rounded up to pages. It
divides the size by one more than that of a page, and does not look at where in its page the range
begins, so the pages it comes to are the first `n / (PAGE_SZ + 1) + 1` from the page of the address.
A byte on a page after these is left as it was (`identity_mapped_iff`).

The loop is a run of `allocate_page` calls (`run_identityFrom`), so its effect on the page map is
that of a run.
-/

namespace PrintOS.Paging

open ByteMemory (Mem)

/-- The walk for the address is present, and its page table entry holds the address's own frame. -/
def Identity (PML4 : Nat) (m : Mem) (b : Nat) : Prop :=
  ∃ e, lookup PML4 m b = some e ∧ addrField e = b >>> PAGE_OFFSET_BITS

/-- The address is in the range, on a page that the loop does not come to. -/
def Missed (addr n b : Nat) : Prop :=
  addr ≤ b ∧ b < addr + n ∧ addr / PAGE_SZ + n / (PAGE_SZ + 1) < b / PAGE_SZ

/-- The calls of the loop. -/
def identityCalls : Nat → Nat → List (Nat × Nat)
  | 0, _ => []
  | turns + 1, addr => (addr, addr) :: identityCalls turns (u64 (addr + PAGE_SZ))

/-- The frame number of an address is the number of its page. -/
theorem frameNumber_eq (a : Nat) : a >>> PAGE_OFFSET_BITS = a / PAGE_SZ :=
  Nat.shiftRight_eq_div_pow a 12

/-- The page of a turn. -/
theorem turn_div (addr i : Nat) : (addr + i * PAGE_SZ) / PAGE_SZ = addr / PAGE_SZ + i :=
  Nat.add_mul_div_right addr i (by decide)

section Loop

variable {σ : Type} {requestFrame : σ → Except Fault (Nat × σ)} {PML4 : Nat} {s t : State σ}

theorem run_identityFrom {turns addr : Nat}
    (ok : identityFrom requestFrame PML4 turns addr s = .ok t) :
    Run (step requestFrame PML4) (fun _ _ => True) s (identityCalls turns addr) t := by
  induction turns generalizing addr s with
  | zero =>
    cases ok
    exact .nil _
  | succ turns ih =>
    obtain ⟨u, hcall, hrest⟩ := Except.bind_eq_ok.mp ok
    exact .cons trivial hcall (ih hrest)

/-- Below the last address the calls are for the pages from the first on. -/
theorem mem_identityCalls {turns addr : Nat} (noWrap : addr + turns * PAGE_SZ < 2 ^ 64)
    {call : Nat × Nat} : call ∈ identityCalls turns addr ↔
      ∃ i < turns, call = (addr + i * PAGE_SZ, addr + i * PAGE_SZ) := by
  induction turns generalizing addr with
  | zero =>
    refine iff_of_false List.not_mem_nil ?_
    rintro ⟨i, hi, -⟩
    exact Nat.not_lt_zero i hi
  | succ turns ih =>
    rw [Nat.succ_mul] at noWrap
    have hnext : u64 (addr + PAGE_SZ) = addr + PAGE_SZ := u64_of_lt (by omega)
    rw [identityCalls, List.mem_cons, hnext, ih (by omega)]
    constructor
    · rintro (rfl | ⟨i, hi, rfl⟩)
      · exact ⟨0, Nat.succ_pos _, by rw [Nat.zero_mul, Nat.add_zero]⟩
      · exact ⟨i + 1, Nat.succ_lt_succ hi, by rw [Nat.succ_mul, Nat.add_assoc, Nat.add_comm PAGE_SZ]⟩
    · rintro ⟨i, hi, rfl⟩
      cases i with
      | zero => exact .inl (by rw [Nat.zero_mul, Nat.add_zero])
      | succ i =>
        refine .inr ⟨i, Nat.lt_of_succ_lt_succ hi, ?_⟩
        rw [Nat.succ_mul, Nat.add_assoc, Nat.add_comm PAGE_SZ]

/-- The loop's turns for a range below 2^44 stay below it but for one page. -/
theorem turns_noWrap {addr n : Nat} (low : addr + n < 2 ^ 44) :
    addr + (n / (PAGE_SZ + 1) + 1) * PAGE_SZ < 2 ^ 64 := by
  simp only [PAGE_SZ, FRAME_SZ]
  omega

/-- A turn of the loop and an address in the range are on the same page when the turn's number is
that of the page. -/
theorem path_turn {addr n b i : Nat} (low : addr + n < 2 ^ 44) (hi : i < n / (PAGE_SZ + 1) + 1)
    (hb : b < addr + n) :
    path (addr + i * PAGE_SZ) = path b ↔ addr / PAGE_SZ + i = b / PAGE_SZ := by
  have hturn : (addr + i * PAGE_SZ) / 2 ^ 12 = addr / PAGE_SZ + i := turn_div addr i
  have hbyte : b / 2 ^ 12 = b / PAGE_SZ := rfl
  rw [path_inj, pageNumber, pageNumber, hturn, hbyte]
  simp only [PAGE_SZ, FRAME_SZ] at hi ⊢
  omega

variable {mem : Mem} {pmem : σ} {calls : List (Nat × Nat)} {paths : Nat → Option (List Nat)}

/-- The loop leaves the entries of the pages that it does not come to. -/
theorem lookup_of_missed {addr n b : Nat} (low : addr + n < 2 ^ 44)
    (tables : Tables PML4 s.mem s.taken paths)
    (ok : identityPaging requestFrame PML4 addr n s = .ok t) (fresh : Fresh PML4 t.taken)
    (missed : Missed addr n b) : lookup PML4 t.mem b = lookup PML4 s.mem b := by
  obtain ⟨-, hkept, -⟩ := lookup_of_run (run_identityFrom ok) fresh tables
  apply hkept
  intro call hcall hsame
  obtain ⟨i, hi, rfl⟩ := (mem_identityCalls (turns_noWrap low)).mp hcall
  obtain ⟨-, hb, hpage⟩ := missed
  have hnumber := (path_turn low hi hb).mp hsame
  omega

/-- The loop maps the other pages of the range to themselves. -/
theorem identity_of_not_missed {addr n b : Nat} (low : addr + n < 2 ^ 44)
    (tables : Tables PML4 s.mem s.taken paths)
    (ok : identityPaging requestFrame PML4 addr n s = .ok t) (fresh : Fresh PML4 t.taken)
    (hb : addr ≤ b) (hb' : b < addr + n) (reached : ¬ Missed addr n b) :
    Identity PML4 t.mem b := by
  obtain ⟨-, -, hlast⟩ := lookup_of_run (run_identityFrom ok) fresh tables
  have hpage : b / PAGE_SZ < addr / PAGE_SZ + (n / (PAGE_SZ + 1) + 1) := by
    by_contra hlt
    exact reached ⟨hb, hb', by omega⟩
  have hfirst : addr / PAGE_SZ ≤ b / PAGE_SZ := Nat.div_le_div_right hb
  -- some call of the loop is for the page of `b`, and each one that is maps it to itself
  have hcall : ∃ call ∈ identityCalls (n / (PAGE_SZ + 1) + 1) addr, path call.1 = path b := by
    have hi : b / PAGE_SZ - addr / PAGE_SZ < n / (PAGE_SZ + 1) + 1 := by omega
    refine ⟨_, (mem_identityCalls (turns_noWrap low)).mpr ⟨_, hi, rfl⟩, ?_⟩
    rw [path_turn low hi hb']
    omega
  obtain ⟨pre, call, post, hsplit, hsame, hpost⟩ := exists_last hcall
  obtain ⟨e, he, hmaps⟩ := hlast b pre call post hsplit hsame hpost
  refine ⟨e, he, ?_⟩
  have hmem : call ∈ identityCalls (n / (PAGE_SZ + 1) + 1) addr := by
    rw [hsplit]
    exact List.mem_append_right _ List.mem_cons_self
  obtain ⟨i, hi, rfl⟩ := (mem_identityCalls (turns_noWrap low)).mp hmem
  have hnumber := (path_turn low hi hb').mp hsame
  rw [hmaps.frame, frameNumber_eq, frameNumber_eq, turn_div, hnumber]
  apply Nat.mod_eq_of_lt
  simp only [PAGE_SZ, FRAME_SZ]
  omega

/-- **When identity paging maps its range.** From a PML4 of zeroes, after any completed calls of
`allocate_page` and with fresh table frames: a completed `__identity_paging` maps every byte of its
range to itself exactly when the bytes on the pages that its loop does not come to were mapped to
themselves before. -/
theorem identity_mapped_iff {addr n : Nat} (haligned : PML4 % PAGE_SZ = 0)
    (zero : ∀ x, PML4 ≤ x → x < PML4 + PAGE_SZ → mem x = 0)
    (run : Run (step requestFrame PML4) (fun _ _ => True) ⟨mem, pmem, []⟩ calls s)
    (low : addr + n < 2 ^ 44) (ok : identityPaging requestFrame PML4 addr n s = .ok t)
    (fresh : Fresh PML4 t.taken) :
    (∀ b, addr ≤ b → b < addr + n → Identity PML4 t.mem b) ↔
      ∀ b, Missed addr n b → Identity PML4 s.mem b := by
  obtain ⟨tables, -⟩ := tables_zero haligned zero
  obtain ⟨more, htaken⟩ := taken_of_run (run_identityFrom ok)
  obtain ⟨⟨paths, tables'⟩, -, -⟩ := lookup_of_run run (Fresh.of_append (htaken ▸ fresh)) tables
  constructor
  · intro all b missed
    obtain ⟨e, he, hframe⟩ := all b missed.1 missed.2.1
    rw [lookup_of_missed low tables' ok fresh missed] at he
    exact ⟨e, he, hframe⟩
  · intro before b hb hb'
    by_cases missed : Missed addr n b
    · obtain ⟨e, he, hframe⟩ := before b missed
      rw [← lookup_of_missed low tables' ok fresh missed] at he
      exact ⟨e, he, hframe⟩
    · exact identity_of_not_missed low tables' ok fresh hb hb' missed

end Loop

/-- One page of a new address space. -/
theorem page_identity_mapped : ∃ t, identityPaging tape 0x10000 0x7000 0x1000
    ⟨fun _ => 0, [0x11000, 0x12000, 0x13000], []⟩ = .ok t ∧
      ∀ b, 0x7000 ≤ b → b < 0x8000 → Identity 0x10000 t.mem b := by
  obtain ⟨t, hok, htaken⟩ : ∃ t, identityPaging tape 0x10000 0x7000 0x1000
      ⟨fun _ => 0, [0x11000, 0x12000, 0x13000], []⟩ = .ok t ∧
        t.taken = [0x11000, 0x12000, 0x13000] := by
    apply Except.ok_of_toOption_map
    simp only [identityPaging, identityFrom, allocatePage, getOrCreate, memset_eq]
    decide +kernel
  have fresh : Fresh 0x10000 t.taken := by
    rw [htaken]
    exact ⟨by decide, by decide, by decide, by decide⟩
  refine ⟨t, hok, (identity_mapped_iff (by decide) (fun _ _ _ => rfl) (.nil _) (by decide) hok
    fresh).mpr ?_⟩
  rintro b ⟨hb, hb', hpage⟩
  simp only [PAGE_SZ, FRAME_SZ] at hpage
  omega

/-- The same size from the middle of a page on: the second page is not mapped. -/
theorem second_page_not_mapped : ∃ t, identityPaging tape 0x10000 0x1800 0x1000
    ⟨fun _ => 0, [0x11000, 0x12000, 0x13000], []⟩ = .ok t ∧ Fresh 0x10000 t.taken ∧
      ¬ ∀ b, 0x1800 ≤ b → b < 0x1800 + 0x1000 → Identity 0x10000 t.mem b := by
  obtain ⟨t, hok, ht⟩ : ∃ t, identityPaging tape 0x10000 0x1800 0x1000
      ⟨fun _ => 0, [0x11000, 0x12000, 0x13000], []⟩ = .ok t ∧
        (t.taken, lookup 0x10000 t.mem 0x2000) = ([0x11000, 0x12000, 0x13000], none) := by
    apply Except.ok_of_toOption_map
    simp only [identityPaging, identityFrom, allocatePage, getOrCreate, memset_eq]
    decide +kernel
  obtain ⟨htaken, hnone⟩ := Prod.mk.inj ht
  refine ⟨t, hok, ?_, ?_⟩
  · rw [htaken]
    exact ⟨by decide, by decide, by decide, by decide⟩
  · intro all
    obtain ⟨e, he, -⟩ := all 0x2000 (by decide) (by decide)
    rw [hnone] at he
    cases he

end PrintOS.Paging
