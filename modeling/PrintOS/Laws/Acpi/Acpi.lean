import Mathlib.Data.List.Basic
import Mathlib.Data.Nat.Find
import PrintOS.Acpi.Acpi

/-!
# What the ACPI walks find

Both `get_header`s look at places one after the other, and return at the first one that they take
(`scan`). What is asked of them is to return the first place that is right, null where there is
none, and to look at no place outside of the table.

The RSDT's walk takes an entry whose signature `strncmp` does not tell from the one asked for, so
one that agrees up to a common NUL is enough (`Taken`), and it counts the entries of a length below
the header's in 64 bits. `sdt_found_iff` is when it is right all the same.

The MADT's walk takes the right structures. It looks at 15, whether the table has more of them or
fewer (`ics_found_iff`).
-/

namespace PrintOS.Acpi

open ByteMemory (Mem Byte)

/-! ## Scans -/

section Scan

variable {hit : Nat → Bool} {result : Nat → Nat} {ps qs : List Nat} {p : Nat}

/-- The walk over some places: it returns at the first hit. -/
def scan (hit : Nat → Bool) (result : Nat → Nat) : List Nat → Walk
  | [] => ⟨nullptr, []⟩
  | p :: ps => if hit p then ⟨result p, [p]⟩ else (scan hit result ps).after p

theorem scan_ptr : (scan hit result ps).ptr = ((ps.find? hit).map result).getD nullptr := by
  induction ps with
  | nil => rfl
  | cons p ps ih =>
    rw [scan, List.find?_cons]
    cases hp : hit p with
    | true => rfl
    | false => exact ih

theorem mem_of_mem_scan (h : p ∈ (scan hit result ps).read) : p ∈ ps := by
  induction ps with
  | nil => exact h
  | cons q ps ih =>
    rw [scan] at h
    cases hq : hit q with
    | true =>
      rw [hq] at h
      exact List.mem_cons.mpr (.inl (List.mem_singleton.mp h))
    | false =>
      rw [hq] at h
      rcases List.mem_cons.mp h with rfl | h
      · exact List.mem_cons_self
      · exact List.mem_cons_of_mem _ (ih h)

/-- Where there is a hit, the places after it are not looked at. -/
theorem scan_append_of_hit (h : ∃ p ∈ ps, hit p = true) :
    scan hit result (ps ++ qs) = scan hit result ps := by
  induction ps with
  | nil =>
    obtain ⟨p, hp, -⟩ := h
    exact absurd hp List.not_mem_nil
  | cons q ps ih =>
    rw [List.cons_append, scan, scan]
    cases hq : hit q with
    | true => rfl
    | false =>
      obtain ⟨p, hp, hhit⟩ := h
      rcases List.mem_cons.mp hp with rfl | hp
      · exact absurd (hq.symm.trans hhit) Bool.false_ne_true
      · rw [ih ⟨p, hp, hhit⟩]

/-- Where there is none, the next place is looked at. -/
theorem mem_scan_append (none : ∀ q ∈ ps, hit q = false) :
    p ∈ (scan hit result (ps ++ p :: qs)).read := by
  induction ps with
  | nil =>
    rw [List.nil_append, scan]
    split
    · exact List.mem_singleton_self p
    · exact List.mem_cons_self
  | cons q ps ih =>
    rw [List.cons_append, scan, none q List.mem_cons_self]
    exact List.mem_cons_of_mem _ (ih fun r hr => none r (List.mem_cons_of_mem _ hr))

end Scan

/-! ## Signatures -/

/-- The same bytes at two addresses. -/
def Agree (m : Mem) (a b n : Nat) : Prop := ∀ k < n, m (a + k) = m (b + k)

theorem agree_succ {m : Mem} {a b n : Nat} :
    Agree m a b (n + 1) ↔ m a = m b ∧ Agree m (a + 1) (b + 1) n := by
  constructor
  · intro h
    refine ⟨h 0 (Nat.succ_pos n), fun k hk => ?_⟩
    have next := h (k + 1) (Nat.succ_lt_succ hk)
    rwa [Nat.add_comm k 1, ← Nat.add_assoc, ← Nat.add_assoc] at next
  · rintro ⟨first, rest⟩ k hk
    cases k with
    | zero => exact first
    | succ k =>
      have next := rest k (Nat.lt_of_succ_lt_succ hk)
      rwa [Nat.add_assoc, Nat.add_assoc, Nat.add_comm 1 k] at next

/-- `strncmp` tells two strings apart unless they agree to the end, or up to a NUL of both. -/
theorem strncmp_eq_zero {m : Mem} {a b n : Nat} :
    strncmp m a b n = 0 ↔ Agree m a b n ∨ ∃ j < n, m (a + j) = 0 ∧ Agree m a b (j + 1) := by
  induction n generalizing a b with
  | zero => exact iff_of_true rfl (.inl fun k hk => absurd hk (Nat.not_lt_zero k))
  | succ n ih =>
    rw [strncmp, agree_succ]
    split_ifs with go
    · rw [ih]
      constructor
      · rintro (all | ⟨j, hj, null, agree⟩)
        · exact .inl ⟨go.2, all⟩
        · refine .inr ⟨j + 1, Nat.succ_lt_succ hj, ?_, agree_succ.mpr ⟨go.2, agree⟩⟩
          rwa [Nat.add_assoc, Nat.add_comm 1 j] at null
      · rintro (⟨-, all⟩ | ⟨j, hj, null, agree⟩)
        · exact .inl all
        · cases j with
          | zero => exact absurd null go.1
          | succ j =>
            rw [Nat.add_comm j 1, ← Nat.add_assoc] at null
            exact .inr ⟨j, Nat.lt_of_succ_lt_succ hj, null, (agree_succ.mp agree).2⟩
    · have hsub : m a - m b = 0 ↔ m a = m b := by
        simp [BitVec.sub_eq_iff_eq_add]
      rw [hsub]
      constructor
      · intro same
        have null : m a = 0 := by
          by_contra h
          exact go ⟨h, same⟩
        refine .inr ⟨0, Nat.succ_pos n, null, ?_⟩
        intro k hk
        rw [Nat.lt_one_iff.mp hk]
        exact same
      · rintro (⟨same, -⟩ | ⟨j, -, -, agree⟩)
        · exact same
        · exact agree 0 (Nat.succ_pos j)

/-! ## The RSDT -/

section Rsdt

variable {m : Mem} {rsdt signature i : Nat}

/-- The entry lies in the bytes of the RSDT. -/
def Within (m : Mem) (rsdt i : Nat) : Prop := RSDT_SZ + 4 * i + 4 ≤ length m rsdt

/-- The table of an entry has the signature. -/
def Signed (m : Mem) (rsdt signature i : Nat) : Prop := Agree m (sdtTable m rsdt i) signature 4

/-- The table of an entry has the signature, as far as a NUL of both. -/
def Taken (m : Mem) (rsdt signature i : Nat) : Prop :=
  Signed m rsdt signature i ∨ ∃ j < 4, m (sdtTable m rsdt i + j) = 0 ∧
    Agree m (sdtTable m rsdt i) signature (j + 1)

/-- What is asked of `acpi::sdt::get_header`. -/
structure FindsSdt (m : Mem) (rsdt signature : Nat) (w : Walk) : Prop where
  inside : ∀ i ∈ w.read, Within m rsdt i
  first : ∀ i, Within m rsdt i → Signed m rsdt signature i →
    (∀ j < i, ¬ Signed m rsdt signature j) → w.ptr = sdtTable m rsdt i
  null_iff : w.ptr = nullptr ↔ ∀ i, Within m rsdt i → ¬ Signed m rsdt signature i

/-- The first entry that is taken has the signature and is not null; or it is null, and no entry has
the signature. -/
def TakesRight (m : Mem) (rsdt signature : Nat) : Prop :=
  ∀ i, Within m rsdt i → Taken m rsdt signature i → (∀ j < i, ¬ Taken m rsdt signature j) →
    (Signed m rsdt signature i ∧ sdtTable m rsdt i ≠ nullptr) ∨
      (sdtTable m rsdt i = nullptr ∧ ∀ j, Within m rsdt j → ¬ Signed m rsdt signature j)

/-- The test of the loop. -/
def takes (m : Mem) (rsdt signature i : Nat) : Bool :=
  strncmp m (sdtTable m rsdt i) signature 4 = 0

theorem takes_iff : takes m rsdt signature i = true ↔ Taken m rsdt signature i :=
  decide_eq_true_iff.trans strncmp_eq_zero

theorem getHeaderFrom_eq_scan (turns i : Nat) :
    getHeaderFrom m rsdt signature turns i =
      scan (takes m rsdt signature) (sdtTable m rsdt) (List.range' i turns) := by
  induction turns generalizing i with
  | zero => rfl
  | succ turns ih =>
    rw [getHeaderFrom, List.range'_succ, scan, ih]
    simp only [takes, decide_eq_true_eq]

theorem getHeader_eq_scan : getHeader m rsdt signature =
    scan (takes m rsdt signature) (sdtTable m rsdt) (List.range (entries m rsdt)) := by
  rw [getHeader, getHeaderFrom_eq_scan, List.range_eq_range']

theorem length_lt (m : Mem) (table : Nat) : length m table < 2 ^ 32 := m.readLE_lt _ 4

/-- With a length that covers the header, the entries that are counted are those within it. -/
theorem lt_entries_iff (long : RSDT_SZ ≤ length m rsdt) : i < entries m rsdt ↔ Within m rsdt i := by
  have hlt := length_lt m rsdt
  rw [entries, sub64_of_le long (Nat.lt_trans hlt (by decide)), Within]
  omega

/-- With a shorter one there are far more. -/
theorem entries_pos_of_short (short : length m rsdt < RSDT_SZ) : 0 < entries m rsdt := by
  rw [entries, sub64_of_lt short (by decide)]
  simp only [RSDT_SZ] at short ⊢
  omega

/-- What the walk returns: the first entry that is taken, of those that are counted. -/
theorem getHeader_ptr_of_taken (counted : i < entries m rsdt) (taken : Taken m rsdt signature i)
    (least : ∀ j < i, ¬ Taken m rsdt signature j) :
    (getHeader m rsdt signature).ptr = sdtTable m rsdt i := by
  have hfind : (List.range (entries m rsdt)).find? (takes m rsdt signature) = some i := by
    refine List.find?_range_eq_some.mpr ⟨takes_iff.mpr taken, List.mem_range.mpr counted, ?_⟩
    intro j hj
    rw [Bool.not_eq_true', ← Bool.not_eq_true, takes_iff]
    exact least j hj
  rw [getHeader_eq_scan, scan_ptr, hfind]
  rfl

theorem getHeader_ptr_of_none (none : ∀ i < entries m rsdt, ¬ Taken m rsdt signature i) :
    (getHeader m rsdt signature).ptr = nullptr := by
  have hfind : (List.range (entries m rsdt)).find? (takes m rsdt signature) = Option.none := by
    refine List.find?_range_eq_none.mpr fun j hj => ?_
    rw [Bool.not_eq_true', ← Bool.not_eq_true, takes_iff]
    exact none j hj
  rw [getHeader_eq_scan, scan_ptr, hfind]
  rfl

theorem Within.mono {j : Nat} (within : Within m rsdt i) (h : j ≤ i) : Within m rsdt j := by
  unfold Within at within ⊢
  omega

theorem takesRight_of_finds (long : RSDT_SZ ≤ length m rsdt)
    (finds : FindsSdt m rsdt signature (getHeader m rsdt signature)) :
    TakesRight m rsdt signature := by
  intro i within taken least
  have hptr := getHeader_ptr_of_taken ((lt_entries_iff long).mpr within) taken least
  by_cases none : ∀ j, Within m rsdt j → ¬ Signed m rsdt signature j
  · exact .inr ⟨hptr ▸ finds.null_iff.mpr none, none⟩
  · left
    have notNull : sdtTable m rsdt i ≠ nullptr := fun h => none (finds.null_iff.mp (hptr.trans h))
    have hsigned : ∃ j, Within m rsdt j ∧ Signed m rsdt signature j := by
      by_contra h
      exact none fun j hj signed => h ⟨j, hj, signed⟩
    classical
    obtain ⟨hj, signed⟩ := Nat.find_spec hsigned
    -- the walk returned the first table with the signature, at whatever entry
    have hfirst := finds.first _ hj signed fun k hk h =>
      Nat.find_min hsigned hk ⟨hj.mono (Nat.le_of_lt hk), h⟩
    refine ⟨?_, notNull⟩
    rw [Signed, ← hptr, hfirst]
    exact signed

theorem finds_of_takesRight (long : RSDT_SZ ≤ length m rsdt)
    (right : TakesRight m rsdt signature) :
    FindsSdt m rsdt signature (getHeader m rsdt signature) := by
  have inside : ∀ i ∈ (getHeader m rsdt signature).read, Within m rsdt i := by
    intro i hi
    rw [getHeader_eq_scan] at hi
    exact (lt_entries_iff long).mp (List.mem_range.mp (mem_of_mem_scan hi))
  by_cases taken : ∃ i, Within m rsdt i ∧ Taken m rsdt signature i
  · obtain ⟨i, ⟨within, taken⟩, least⟩ : ∃ i, (Within m rsdt i ∧ Taken m rsdt signature i) ∧
        ∀ j < i, ¬ Taken m rsdt signature j := by
      classical
      refine ⟨Nat.find taken, Nat.find_spec taken, fun j hj h => Nat.find_min taken hj ⟨?_, h⟩⟩
      exact (Nat.find_spec taken).1.mono (Nat.le_of_lt hj)
    have hptr := getHeader_ptr_of_taken ((lt_entries_iff long).mpr within) taken least
    rcases right i within taken least with ⟨signed, notNull⟩ | ⟨null, none⟩
    · refine ⟨inside, ?_, ?_⟩
      · intro j hj signed' first
        obtain rfl : i = j := by
          rcases Nat.lt_trichotomy i j with h | h | h
          · exact absurd signed (first i h)
          · exact h
          · exact absurd (.inl signed') (least j h)
        exact hptr
      · rw [hptr]
        exact iff_of_false notNull fun none => none i within signed
    · refine ⟨inside, fun j hj signed => absurd signed (none j hj), ?_⟩
      rw [hptr]
      exact iff_of_true null none
  · have none : ∀ i, Within m rsdt i → ¬ Signed m rsdt signature i :=
      fun i hi signed => taken ⟨i, hi, .inl signed⟩
    have hptr : (getHeader m rsdt signature).ptr = nullptr :=
      getHeader_ptr_of_none fun i hi h => taken ⟨i, (lt_entries_iff long).mp hi, h⟩
    exact ⟨inside, fun j hj signed => absurd signed (none j hj), iff_of_true hptr none⟩

/-- **When `acpi::sdt::get_header` finds the right table**: exactly when the RSDT is as long as its
header, and the first entry that agrees with the signature as far as a common NUL agrees with it in
all four bytes and is not null, or is null where no entry has the signature. -/
theorem sdt_found_iff (m : Mem) (rsdt signature : Nat) :
    FindsSdt m rsdt signature (getHeader m rsdt signature) ↔
      RSDT_SZ ≤ length m rsdt ∧ TakesRight m rsdt signature := by
  constructor
  · intro finds
    have long : RSDT_SZ ≤ length m rsdt := by
      by_contra short
      obtain ⟨n, hn⟩ : ∃ n, entries m rsdt = n + 1 :=
        Nat.exists_eq_succ_of_ne_zero (Nat.ne_of_gt (entries_pos_of_short (Nat.not_le.mp short)))
      have first : 0 ∈ (getHeader m rsdt signature).read := by
        rw [getHeader, hn, getHeaderFrom_eq_scan, List.range'_succ, ← List.nil_append (0 :: _)]
        exact mem_scan_append fun q hq => absurd hq List.not_mem_nil
      have within : RSDT_SZ + 4 * 0 + 4 ≤ length m rsdt := finds.inside 0 first
      omega
    exact ⟨long, takesRight_of_finds long finds⟩
  · rintro ⟨long, right⟩
    exact finds_of_takesRight long right

/-- An RSDT at `0x1000` that says it has 32 bytes, with the address of a table behind it; the
signature that is asked for is at `0x3000`. -/
def shortRsdt : Mem :=
  let m := Mem.copy (fun _ => 0) 0x1004 [32, 0, 0, 0]
  let m := m.copy 0x1024 [0, 0x20, 0, 0]
  let m := m.copy 0x2000 [0x41, 0x50, 0x49, 0x43]
  m.copy 0x3000 [0x41, 0x50, 0x49, 0x43]

/-- No entry is within 32 bytes, and one is looked at and returned. -/
theorem short_rsdt_read_outside : getHeader shortRsdt 0x1000 0x3000 = ⟨0x2000, [0]⟩ ∧
    ¬ FindsSdt shortRsdt 0x1000 0x3000 (getHeader shortRsdt 0x1000 0x3000) := by
  have walk : getHeader shortRsdt 0x1000 0x3000 = ⟨0x2000, [0]⟩ := by decide +kernel
  refine ⟨walk, fun finds => ?_⟩
  rw [walk] at finds
  have within : RSDT_SZ + 4 * 0 + 4 ≤ length shortRsdt 0x1000 := finds.inside 0 List.mem_cons_self
  exact absurd within (by decide +kernel)

end Rsdt

/-! ## The MADT -/

section Madt

variable {m : Mem} {type : IcsType} {stop a : Nat} {rs : List Nat}

/-- The structures from an address on fill the table up to its end. -/
inductive Filled (m : Mem) (stop : Nat) : Nat → List Nat → Prop
  | nil : Filled m stop stop []
  | cons {a : Nat} {rs : List Nat} (proper : 0 < icsLength m a)
    (rest : Filled m stop (a + icsLength m a) rs) : Filled m stop a (a :: rs)

theorem Filled.le (filled : Filled m stop a rs) : a ≤ stop := by
  induction filled with
  | nil => exact Nat.le_refl stop
  | cons _ _ ih => exact Nat.le_trans (Nat.le_add_right _ _) ih

theorem Filled.mem (filled : Filled m stop a rs) {r : Nat} (hr : r ∈ rs) : a ≤ r ∧ r < stop := by
  induction filled with
  | nil => exact absurd hr List.not_mem_nil
  | cons proper rest ih =>
    have hle := rest.le
    rcases List.mem_cons.mp hr with rfl | hr
    · omega
    · have hrest := ih hr
      omega

/-- Where the walk goes as long as it finds nothing. -/
def icsPlaces (m : Mem) : Nat → Nat → List Nat
  | 0, _ => []
  | turns + 1, header => header :: icsPlaces m turns (u64 (header + icsLength m header))

/-- It goes through the structures of the table, and then on from the table's end. -/
theorem icsPlaces_filled (filled : Filled m stop a rs) (small : stop < 2 ^ 64) (turns : Nat) :
    icsPlaces m turns a = rs.take turns ++ icsPlaces m (turns - rs.length) stop := by
  induction filled generalizing turns with
  | nil => rw [List.take_nil, List.nil_append, List.length_nil, Nat.sub_zero]
  | @cons a rs proper rest ih =>
    cases turns with
    | zero => rw [List.take_zero, Nat.zero_sub, icsPlaces, icsPlaces, List.append_nil]
    | succ turns =>
      rw [icsPlaces, u64_of_lt (Nat.lt_of_le_of_lt rest.le small), ih, List.take_succ_cons,
        List.length_cons, Nat.add_sub_add_right, List.cons_append]

/-- The test of the loop. -/
def hasType (m : Mem) (type : IcsType) (header : Nat) : Bool := icsType m header = type.code

theorem getIcsHeaderFrom_eq_scan (turns header : Nat) :
    getIcsHeaderFrom m type turns header =
      scan (hasType m type) id (icsPlaces m turns header) := by
  induction turns generalizing header with
  | zero => rfl
  | succ turns ih =>
    rw [getIcsHeaderFrom, icsPlaces, scan, ih]
    simp only [hasType, decide_eq_true_eq, id_eq]

/-- What is asked of `madt::ics::get_header`, for a table of some structures. -/
structure FindsIcs (m : Mem) (type : IcsType) (stop : Nat) (rs : List Nat) (w : Walk) : Prop where
  first : w.ptr = (rs.find? (hasType m type)).getD nullptr
  null_iff : w.ptr = nullptr ↔ ∀ r ∈ rs, icsType m r ≠ type.code
  inside : ∀ r ∈ w.read, r < stop

/-- One of the first 15 structures has the type; or there are as many, and none has it. -/
def InReach (m : Mem) (type : IcsType) (rs : List Nat) : Prop :=
  (∃ r ∈ rs.take 0xf, icsType m r = type.code) ∨
    (0xf ≤ rs.length ∧ ∀ r ∈ rs, icsType m r ≠ type.code)

theorem hasType_iff {r : Nat} : hasType m type r = true ↔ icsType m r = type.code :=
  decide_eq_true_iff

theorem hasType_eq_false {r : Nat} : hasType m type r = false ↔ icsType m r ≠ type.code :=
  decide_eq_false_iff_not

/-- The first structure with the type, where it is among some at the start. -/
theorem find?_of_take {n : Nat} (h : ∃ r ∈ rs.take n, icsType m r = type.code) :
    ∃ r ∈ rs, icsType m r = type.code ∧ (rs.take n).find? (hasType m type) = some r ∧
      rs.find? (hasType m type) = some r := by
  obtain ⟨r, hr, htype⟩ := h
  obtain ⟨f, hfind⟩ := Option.isSome_iff_exists.mp
    (List.find?_isSome.mpr ⟨r, hr, hasType_iff.mpr htype⟩)
  refine ⟨f, List.mem_of_mem_take (List.mem_of_find?_eq_some hfind),
    hasType_iff.mp (List.find?_some hfind), hfind, ?_⟩
  rw [← List.take_append_drop n rs, List.find?_append, hfind]
  rfl

theorem find?_eq_none_of_forall {ps : List Nat} (h : ∀ r ∈ ps, icsType m r ≠ type.code) :
    ps.find? (hasType m type) = none :=
  List.find?_eq_none.mpr fun r hr hit => h r hr (hasType_iff.mp hit)

/-- **When `madt::ics::get_header` finds the right structure**, for a table at a 32-bit address that
its structures fill: exactly when one of the first 15 has the type, or there are as many and none
has it. -/
theorem ics_found_iff (m : Mem) (madt : Nat) (type : IcsType) (rs : List Nat)
    (low : madt < 2 ^ 32) (filled : Filled m (madt + length m madt) (madt + ICS_TABLE) rs) :
    FindsIcs m type (madt + length m madt) rs (getIcsHeader m madt type) ↔ InReach m type rs := by
  have hlength := length_lt m madt
  rw [getIcsHeader, getIcsHeaderFrom_eq_scan, icsPlaces_filled filled (by omega)]
  have hmem : ∀ r ∈ rs, madt + ICS_TABLE ≤ r ∧ r < madt + length m madt := fun r hr => filled.mem hr
  by_cases hit : ∃ r ∈ rs.take 0xf, icsType m r = type.code
  · -- the walk ends in the table, at the structure
    refine iff_of_true ?_ (.inl hit)
    obtain ⟨r, hr, htype, htake, hfind⟩ := find?_of_take hit
    rw [scan_append_of_hit (hit.imp fun r h => h.imp_right hasType_iff.mpr)]
    have hptr : (scan (hasType m type) id (rs.take 0xf)).ptr = r := by
      rw [scan_ptr, htake]
      rfl
    refine ⟨?_, ?_, fun p hp => (hmem p (List.mem_of_mem_take (mem_of_mem_scan hp))).2⟩
    · rw [hptr, hfind]
      rfl
    · rw [hptr]
      have hpos := (hmem r hr).1
      refine iff_of_false ?_ fun none => none r hr htype
      simp only [nullptr, ICS_TABLE] at hpos ⊢
      omega
  have miss : ∀ r ∈ rs.take 0xf, icsType m r ≠ type.code := fun r hr h => hit ⟨r, hr, h⟩
  rcases Nat.lt_or_ge rs.length 0xf with short | long
  · -- the walk goes on behind the table
    refine iff_of_false ?_ ?_
    · intro finds
      obtain ⟨k, hk⟩ : ∃ k, 0xf - rs.length = k + 1 := ⟨0xf - rs.length - 1, by omega⟩
      have behind := finds.inside (madt + length m madt)
      rw [hk, icsPlaces] at behind
      exact Nat.lt_irrefl _ (behind (mem_scan_append fun r hr => hasType_eq_false.mpr (miss r hr)))
    · rintro (found | ⟨long, -⟩)
      · exact hit found
      · omega
  · -- the walk ends in the table, whether there is more of it or not
    rw [Nat.sub_eq_zero_of_le long, icsPlaces, List.append_nil]
    have hptr : (scan (hasType m type) id (rs.take 0xf)).ptr = nullptr := by
      rw [scan_ptr, find?_eq_none_of_forall miss]
      rfl
    constructor
    · intro finds
      exact .inr ⟨long, finds.null_iff.mp hptr⟩
    · rintro (found | ⟨-, none⟩)
      · exact absurd found hit
      · refine ⟨?_, iff_of_true hptr none, fun p hp => ?_⟩
        · rw [hptr, find?_eq_none_of_forall none]
          rfl
        · exact (hmem p (List.mem_of_mem_take (mem_of_mem_scan hp))).2

/-- A MADT at `0x1000` with the local APICs of some processors, 8 bytes each, and then an IO APIC.
-/
def madtOf (cpus : Nat) : Mem := fun x =>
  if x = 0x1004 then BitVec.ofNat 8 (44 + 8 * cpus + 12)
  else if 0x102c ≤ x ∧ x < 0x102c + 8 * cpus ∧ x % 8 = 5 then 8
  else if x = 0x102c + 8 * cpus then 1
  else if x = 0x102d + 8 * cpus then 12
  else 0

/-- The structures of such a table, from one of them on. -/
def madtStructures (i n : Nat) : List Nat := (List.range' i n).map fun i => 0x102c + 8 * i

theorem filled_madtOf {cpus k : Nat} (hk : k ≤ cpus) :
    Filled (madtOf cpus) (0x102c + 8 * cpus + 12) (0x102c + 8 * (cpus - k))
      (madtStructures (cpus - k) (k + 1)) := by
  induction k with
  | zero =>
    have hlength : icsLength (madtOf cpus) (0x102c + 8 * cpus) = 12 := by
      unfold icsLength madtOf
      rw [if_neg (by omega), if_neg (by omega), if_neg (by omega), if_pos (by omega)]
      rfl
    refine .cons ?_ ?_
    · rw [Nat.sub_zero, hlength]
      decide
    · rw [Nat.sub_zero, hlength]
      exact .nil
  | succ k ih =>
    have hlength : icsLength (madtOf cpus) (0x102c + 8 * (cpus - (k + 1))) = 8 := by
      unfold icsLength madtOf
      rw [if_neg (by omega), if_pos (by omega)]
      rfl
    have hnext : cpus - k = cpus - (k + 1) + 1 := by omega
    rw [madtStructures, List.range'_succ, List.map_cons]
    refine .cons ?_ ?_
    · rw [hlength]
      decide
    · have rest := ih (by omega)
      rw [hnext, Nat.mul_succ, ← Nat.add_assoc] at rest
      rw [hlength]
      exact rest

/-- With four processors the IO APIC is found. -/
theorem small_madt_found : getIcsHeader (madtOf 4) 0x1000 .IO_APIC = ⟨0x104c,
      [0x102c, 0x1034, 0x103c, 0x1044, 0x104c]⟩ ∧
    FindsIcs (madtOf 4) .IO_APIC (0x1000 + length (madtOf 4) 0x1000) (madtStructures 0 5)
      (getIcsHeader (madtOf 4) 0x1000 .IO_APIC) := by
  have filled : Filled (madtOf 4) (0x1000 + length (madtOf 4) 0x1000) (0x1000 + ICS_TABLE)
      (madtStructures 0 5) := filled_madtOf (Nat.le_refl 4)
  refine ⟨by decide +kernel, (ics_found_iff (madtOf 4) 0x1000 .IO_APIC _ (by decide) filled).mpr ?_⟩
  exact .inl ⟨0x104c, by decide, by decide⟩

/-- With 15 it is the sixteenth structure, and not found. -/
theorem sixteenth_structure_not_found :
    Filled (madtOf 15) (0x1000 + length (madtOf 15) 0x1000) (0x1000 + ICS_TABLE)
        (madtStructures 0 16) ∧
      0x10a4 ∈ madtStructures 0 16 ∧ icsType (madtOf 15) 0x10a4 = IcsType.IO_APIC.code ∧
      (getIcsHeader (madtOf 15) 0x1000 .IO_APIC).ptr = nullptr ∧
      ¬ FindsIcs (madtOf 15) .IO_APIC (0x1000 + length (madtOf 15) 0x1000) (madtStructures 0 16)
        (getIcsHeader (madtOf 15) 0x1000 .IO_APIC) := by
  have filled : Filled (madtOf 15) (0x1000 + length (madtOf 15) 0x1000) (0x1000 + ICS_TABLE)
      (madtStructures 0 16) := filled_madtOf (Nat.le_refl 15)
  have mem : 0x10a4 ∈ madtStructures 0 16 := by decide
  have htype : icsType (madtOf 15) 0x10a4 = IcsType.IO_APIC.code := by decide
  have null : (getIcsHeader (madtOf 15) 0x1000 .IO_APIC).ptr = nullptr := by decide +kernel
  exact ⟨filled, mem, htype, null, fun finds => finds.null_iff.mp null _ mem htype⟩

end Madt

end PrintOS.Acpi
