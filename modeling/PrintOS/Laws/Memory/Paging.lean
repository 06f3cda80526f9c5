import PrintOS.Lib.Run
import PrintOS.Memory.Paging

/-!
# The page tables refine a map from pages to frames

The abstract page map takes a page number, bits 12 to 47 of an address, to the entry of the
page. `lookup` reads it off the tables, level by level. The law is that `allocate_page`
changes it at one page number.

**Separation.** `Tables` carries a ghost function from a table's address to the path of indices
that leads to it. Since it is a function, a table has one path, so no table is shared by two
parents and no entry is read at two levels. A new table is a fresh frame, which has no path
yet.

**Descent.** `descendFrom` is the upper part of `allocate_page`, for any number of levels and with
the tables that it goes through. What one level does (`getOrCreate_descends`) carries over to all of
them (`descendFrom_descent`); a call is a descent and an assignment in its last table
(`allocatePage_cases`).

What is assumed of `request_frame` is `Fresh`: the frames it answered with during the run are
distinct pages below 4 GiB, none of them the PML4's own page.
-/

namespace PrintOS.Paging

open ByteMemory (Mem)

/-- Bits 12 to 47 of an address. -/
def pageNumber (vaddr : Nat) : Nat := vaddr / 2 ^ 12 % 2 ^ 36

/-- The indices of an address from the PML4 down. -/
def path (vaddr : Nat) : List Nat :=
  let index := PageIndexer.new vaddr
  [index.pml4, index.pdpt, index.pd, index.pt]

/-- The walk along a path from a table: the entry at its end, if every entry is present. -/
def lookupFrom (m : Mem) : Nat → List Nat → Option Nat
  | _, [] => none
  | table, [i] => if presentField (entry m table i) = 0 then none else some (entry m table i)
  | table, i :: rest =>
    if presentField (entry m table i) = 0 then none
    else lookupFrom m (tableAddr (entry m table i)) rest

/-- The page map that the tables stand for: the page table entry of an address that has one. -/
def lookup (PML4 : Nat) (m : Mem) (vaddr : Nat) : Option Nat := lookupFrom m PML4 (path vaddr)

theorem lookupFrom_single (m : Mem) (table i : Nat) :
    lookupFrom m table [i] =
      if presentField (entry m table i) = 0 then none else some (entry m table i) := rfl

theorem lookupFrom_cons_cons (m : Mem) (table i j : Nat) (rest : List Nat) :
    lookupFrom m table (i :: j :: rest) =
      if presentField (entry m table i) = 0 then none
      else lookupFrom m (tableAddr (entry m table i)) (j :: rest) := rfl

/-! ## Indices -/

theorem pageIndexer_eq (vaddr : Nat) :
    PageIndexer.new vaddr =
      { pml4 := vaddr / 2 ^ 39 % 512, pdpt := vaddr / 2 ^ 30 % 512,
        pd := vaddr / 2 ^ 21 % 512, pt := vaddr / 2 ^ 12 % 512 } := by
  have hmask : ∀ n, n &&& BITS_9_MASK = n % 512 := fun n =>
    Nat.and_two_pow_sub_one_eq_mod n 9
  have hpart : ∀ k, (vaddr >>> k) &&& BITS_9_MASK = vaddr / 2 ^ k % 512 := by
    intro k
    rw [hmask]
    exact congrArg (· % 512) (Nat.shiftRight_eq_div_pow vaddr k)
  rw [← hpart, ← hpart, ← hpart, ← hpart]
  simp only [PageIndexer.new, PAGE_OFFSET_BITS, ← Nat.shiftRight_add]

theorem path_lt {vaddr i : Nat} (h : i ∈ path vaddr) : i < 512 := by
  simp only [path, pageIndexer_eq, List.mem_cons, List.not_mem_nil, or_false] at h
  rcases h with rfl | rfl | rfl | rfl <;> exact Nat.mod_lt _ (by decide)

/-- The four indices are the page number: the split loses nothing. -/
theorem path_inj {v w : Nat} : path v = path w ↔ pageNumber v = pageNumber w := by
  simp only [path, pageIndexer_eq, pageNumber, List.cons.injEq, and_true]
  omega

theorem isPageAllocated_eq (PML4 : Nat) (m : Mem) (vaddr : Nat) :
    isPageAllocated PML4 m vaddr = (lookup PML4 m vaddr).isSome := by
  simp only [isPageAllocated, lookup, path, lookupFrom]
  split
  · rfl
  split
  · rfl
  split
  · rfl
  split
  · next h => simp [h]
  · next h => simp [h]

/-! ## Walks -/

/-- The table that the code's walk along some indices comes to, if the entries on the way are
present. -/
def tableAt (m : Mem) : Nat → List Nat → Option Nat
  | table, [] => some table
  | table, i :: rest =>
    if presentField (entry m table i) = 0 then none
    else tableAt m (tableAddr (entry m table i)) rest

/-- The indices of an address in the three upper tables. -/
def upper (vaddr : Nat) : List Nat := (path vaddr).take 3

theorem upper_lt {vaddr i : Nat} (h : i ∈ upper vaddr) : i < 512 :=
  path_lt (List.mem_of_mem_take h)

theorem upper_indices_lt (vaddr : Nat) : (PageIndexer.new vaddr).pml4 < 512 ∧
    (PageIndexer.new vaddr).pdpt < 512 ∧ (PageIndexer.new vaddr).pd < 512 := by
  rw [pageIndexer_eq]
  exact ⟨Nat.mod_lt _ (by decide), Nat.mod_lt _ (by decide), Nat.mod_lt _ (by decide)⟩

theorem pt_lt (vaddr : Nat) : (PageIndexer.new vaddr).pt < 512 := by
  have hmem : (PageIndexer.new vaddr).pt ∈ path vaddr := by simp [path]
  exact path_lt hmem

/-- A walk goes through the table that its first indices lead to. -/
theorem lookupFrom_tableAt {m : Mem} {table j : Nat} {is rest : List Nat} :
    lookupFrom m table (is ++ j :: rest) =
      (tableAt m table is).bind fun t => lookupFrom m t (j :: rest) := by
  induction is generalizing table with
  | nil => rfl
  | cons i is ih =>
    have hcons : ∃ a as, is ++ j :: rest = a :: as := by
      cases is with
      | nil => exact ⟨_, _, rfl⟩
      | cons a as => exact ⟨_, _, rfl⟩
    obtain ⟨a, as, has⟩ := hcons
    rw [List.cons_append, has, lookupFrom_cons_cons, ← has, tableAt, ih]
    split
    · rfl
    · rfl

/-! ## One entry -/

theorem read64_setEntry (m : Mem) (addr frame : Nat) :
    (setEntry m addr frame).read64 addr =
      BitField.set 1 1 1 (BitField.set 0 1 1 (BitField.set 12 32 frame (m.read64 addr))) := by
  have h0 : m.read64 addr < 2 ^ 64 := m.read64_lt addr
  have h1 : BitField.set 12 32 frame (m.read64 addr) < 2 ^ 64 := BitField.set_lt h0 (by decide)
  have h2 := BitField.set_lt (v := 1) h1 (by decide : 0 + 1 ≤ 64)
  have h3 := BitField.set_lt (v := 1) h2 (by decide : 1 + 1 ≤ 64)
  simp only [setEntry]
  rw [Mem.read64_write64 h1, Mem.read64_write64 h2, Mem.read64_write64 h3]

/-- A set entry is present, writable, and holds the low 32 bits of its frame number. -/
theorem setEntry_fields (m : Mem) (addr frame : Nat) :
    presentField ((setEntry m addr frame).read64 addr) = 1 ∧
      rwField ((setEntry m addr frame).read64 addr) = 1 ∧
      addrField ((setEntry m addr frame).read64 addr) = frame % 2 ^ 32 := by
  rw [read64_setEntry]
  refine ⟨?_, ?_, ?_⟩
  · rw [presentField, BitField.get_set_disjoint (by decide)]
    exact BitField.get_set ..
  · exact BitField.get_set ..
  · rw [addrField, BitField.get_set_disjoint (by decide), BitField.get_set_disjoint (by decide),
      BitField.get_set]

theorem setEntry_of_outside {m : Mem} {addr frame x : Nat} (h : x < addr ∨ addr + 8 ≤ x) :
    setEntry m addr frame x = m x := by
  simp only [setEntry]
  rw [Mem.write64_of_outside h, Mem.write64_of_outside h, Mem.write64_of_outside h]

/-- What is found again of a table is the low 32 bits of its address. -/
theorem tableAddr_setEntry {m : Mem} {addr table : Nat} (haligned : table % PAGE_SZ = 0) :
    tableAddr ((setEntry m addr (table >>> PAGE_OFFSET_BITS)).read64 addr) = table % 2 ^ 32 := by
  rw [tableAddr, (setEntry_fields m addr _).2.2]
  simp only [PAGE_SZ, FRAME_SZ] at haligned
  simp only [PAGE_OFFSET_BITS, Nat.shiftRight_eq_div_pow, Nat.shiftLeft_eq]
  omega

/-! ## Separation -/

/-- The frames that `request_frame` answered with: distinct pages below 4 GiB, none of them
the PML4's. -/
structure Fresh (PML4 : Nat) (taken : List Nat) : Prop where
  nodup : taken.Nodup
  aligned : ∀ f ∈ taken, f % PAGE_SZ = 0
  low : ∀ f ∈ taken, f < 2 ^ 32
  root : PML4 ∉ taken

/-- The tables are separate pages, each with one path from the PML4. -/
structure Tables (PML4 : Nat) (m : Mem) (taken : List Nat) (paths : Nat → Option (List Nat)) :
    Prop where
  root : paths PML4 = some []
  owned : ∀ t π, paths t = some π → t = PML4 ∨ t ∈ taken
  aligned : ∀ t π, paths t = some π → t % PAGE_SZ = 0
  edge : ∀ t π i, paths t = some π → π.length < 3 → i < 512 →
    presentField (entry m t i) ≠ 0 → paths (tableAddr (entry m t i)) = some (π ++ [i])

/-- Every entry of a table is as it was, but the one at `(t, i)`. -/
def OnlyEntry (paths : Nat → Option (List Nat)) (m m' : Mem) (t i : Nat) : Prop :=
  ∀ x π j, paths x = some π → j < 512 → (x = t ∧ j = i) ∨ entry m' x j = entry m x j

variable {PML4 : Nat} {m m' : Mem} {taken : List Nat} {paths : Nat → Option (List Nat)}

/-- Setting an entry of a table changes that entry only: tables are separate pages. -/
theorem Tables.onlyEntry_setEntry (tables : Tables PML4 m taken paths) {t i frame : Nat}
    {π : List Nat} (ht : paths t = some π) (hi : i < 512) :
    OnlyEntry paths m (setEntry m (entryAddr t i) frame) t i := by
  intro x π' j hx hj
  have hxa := tables.aligned x π' hx
  have hta := tables.aligned t π ht
  simp only [PAGE_SZ, FRAME_SZ] at hxa hta
  by_cases hsame : x = t ∧ j = i
  · exact .inl hsame
  · right
    refine Mem.read64_congr fun a h1 h2 => setEntry_of_outside ?_
    simp only [entryAddr] at h1 h2 ⊢
    omega

/-- Clearing a page that is no table changes no entry of a table. -/
theorem Tables.entry_memset (tables : Tables PML4 m taken paths) {f x j : Nat} {π : List Nat}
    (hf : f % PAGE_SZ = 0) (hx : paths x = some π) (hne : x ≠ f) (hj : j < 512) :
    entry (memset m f 0 PAGE_SZ) x j = entry m x j := by
  have hxa := tables.aligned x π hx
  simp only [PAGE_SZ, FRAME_SZ] at hxa hf
  refine Mem.read64_congr fun a h1 h2 => Mem.fill_of_outside ?_
  simp only [entryAddr, PAGE_SZ, FRAME_SZ] at h1 h2 ⊢
  omega

/-- A cleared page has no entry present. -/
theorem entry_memset_self {f j : Nat} (hj : j < 512) : entry (memset m f 0 PAGE_SZ) f j = 0 := by
  refine Mem.readLE_eq_zero fun a h1 h2 => ?_
  simp only [entryAddr] at h1 h2
  rw [memset, Mem.fill_apply, if_pos]
  simp only [PAGE_SZ, FRAME_SZ]
  omega

/-- A table that was cleared and linked from another one has no entry present. -/
theorem entry_linked_table {t c i j frame : Nat} (ht : t % PAGE_SZ = 0) (hc : c % PAGE_SZ = 0)
    (hne : t ≠ c) (hi : i < 512) (hj : j < 512) :
    presentField (entry (setEntry (memset m c 0 PAGE_SZ) (entryAddr t i) frame) c j) = 0 := by
  have hread : entry (setEntry (memset m c 0 PAGE_SZ) (entryAddr t i) frame) c j =
      entry (memset m c 0 PAGE_SZ) c j := by
    refine Mem.read64_congr fun a h1 h2 => setEntry_of_outside ?_
    simp only [entryAddr, PAGE_SZ, FRAME_SZ] at h1 h2 ht hc ⊢
    omega
  rw [hread, entry_memset_self hj]
  rfl

/-- No path from a table of which no entry is present. -/
theorem lookupFrom_empty {x j : Nat} {rest : List Nat} (h : presentField (entry m x j) = 0) :
    lookupFrom m x (j :: rest) = none := by
  cases rest with
  | nil => rw [lookupFrom_single, if_pos h]
  | cons k rest => rw [lookupFrom_cons_cons, if_pos h]

/-- A walk whose first entry is as it was goes on from there as it did, if the walk below does. -/
theorem lookupFrom_step {x j : Nat} {rest : List Nat} (hentry : entry m' x j = entry m x j)
    (below : presentField (entry m x j) ≠ 0 → rest ≠ [] →
      lookupFrom m' (tableAddr (entry m x j)) rest = lookupFrom m (tableAddr (entry m x j)) rest) :
    lookupFrom m' x (j :: rest) = lookupFrom m x (j :: rest) := by
  cases rest with
  | nil => rw [lookupFrom_single, lookupFrom_single, hentry]
  | cons k rest =>
    rw [lookupFrom_cons_cons, lookupFrom_cons_cons, hentry]
    split
    · rfl
    · next hpresent => exact below hpresent (List.cons_ne_nil k rest)

/-- Below the upper levels only pages are changed: a walk that does not end in the changed
entry sees nothing of it. -/
theorem Tables.lookupFrom_page (tables : Tables PML4 m taken paths) {t i : Nat} {π : List Nat}
    (ht : paths t = some π) (hπ : π.length = 3) (only : OnlyEntry paths m m' t i) :
    ∀ (js : List Nat) (x : Nat) (π' : List Nat), paths x = some π' → π'.length + js.length = 4 →
      (∀ j ∈ js, j < 512) → π' ++ js ≠ π ++ [i] → lookupFrom m' x js = lookupFrom m x js := by
  intro js
  induction js with
  | nil => intro x π' _ _ _ _; rfl
  | cons j rest ih =>
    intro x π' hx hlen hlt hne
    have hj := hlt j List.mem_cons_self
    -- the changed entry is read at the end of its own path only
    have hentry : entry m' x j = entry m x j := by
      rcases only x π' j hx hj with ⟨rfl, rfl⟩ | h
      · rw [ht] at hx
        cases hx
        have hnil : rest = [] := by
          cases rest with
          | nil => rfl
          | cons k rest =>
            simp only [List.length_cons] at hlen
            omega
        exact absurd (by rw [hnil]) hne
      · exact h
    refine lookupFrom_step hentry fun hpresent hrest => ?_
    have hpos := List.length_pos_iff.mpr hrest
    rw [List.length_cons] at hlen
    refine ih _ (π' ++ [j]) (tables.edge x π' j hx (by omega) hj hpresent) ?_ ?_ ?_
    · rw [List.length_append, List.length_singleton]
      omega
    · intro j' hj'
      exact hlt j' (List.mem_cons_of_mem _ hj')
    · rwa [List.append_assoc, List.singleton_append]

theorem Fresh.of_append {more : List Nat} (h : Fresh PML4 (taken ++ more)) :
    Fresh PML4 taken where
  nodup := (List.nodup_append.mp h.nodup).1
  aligned f hf := h.aligned f (List.mem_append_left _ hf)
  low f hf := h.low f (List.mem_append_left _ hf)
  root hmem := h.root (List.mem_append_left _ hmem)

section OneLevel

variable {σ : Type} {requestFrame : σ → Except Fault (Nat × σ)} {s s' u : State σ}

/-- What one upper level of `allocate_page` leaves, for the entry `(t, i)`: the table below it
is in place, and the page map is as it was. -/
structure Descended (PML4 : Nat) (paths : Nat → Option (List Nat)) (s s' : State σ)
    (t i child : Nat) (π : List Nat) (paths' : Nat → Option (List Nat)) : Prop where
  tables : Tables PML4 s'.mem s'.taken paths'
  extends' : ∀ x ρ, paths x = some ρ → paths' x = some ρ
  child_path : paths' child = some (π ++ [i])
  present : presentField (entry s'.mem t i) ≠ 0
  points : tableAddr (entry s'.mem t i) = child
  only : OnlyEntry paths s.mem s'.mem t i
  lookup_eq : ∀ js x ρ, paths x = some ρ → ρ.length + js.length = 4 → (∀ j ∈ js, j < 512) →
    lookupFrom s'.mem x js = lookupFrom s.mem x js

/-- The two ways through an upper level. -/
theorem getOrCreate_ok {text : String} {addr child : Nat}
    (ok : getOrCreate requestFrame text addr s = .ok (child, s')) :
    (presentField (s.mem.read64 addr) ≠ 0 ∧ child = tableAddr (s.mem.read64 addr) ∧ s' = s) ∨
    (presentField (s.mem.read64 addr) = 0 ∧ child ≠ 0 ∧ ∃ pmem,
      requestFrame s.pmem = .ok (child, pmem) ∧
      s' = { mem := setEntry (memset s.mem child 0 PAGE_SZ) addr (child >>> PAGE_OFFSET_BITS)
             pmem := pmem
             taken := s.taken ++ [child] }) := by
  unfold getOrCreate at ok
  split at ok
  · next h =>
    obtain ⟨⟨table, pmem⟩, hreq, ok⟩ := Except.bind_eq_ok.mp ok
    obtain ⟨_, hnull, ok⟩ := Except.bind_eq_ok.mp ok
    obtain ⟨rfl, rfl⟩ := Prod.mk.inj (Except.ok.inj ok)
    exact .inr ⟨h, kassert_eq_ok.mp hnull, pmem, hreq, rfl⟩
  · next h =>
    obtain ⟨rfl, rfl⟩ := Prod.mk.inj (Except.ok.inj ok)
    exact .inl ⟨h, rfl, rfl⟩

theorem getOrCreate_taken {text : String} {addr child : Nat}
    (ok : getOrCreate requestFrame text addr s = .ok (child, s')) :
    ∃ more, s'.taken = s.taken ++ more := by
  rcases getOrCreate_ok ok with ⟨-, -, rfl⟩ | ⟨-, -, pmem, -, rfl⟩
  · exact ⟨[], (List.append_nil _).symm⟩
  · exact ⟨[child], rfl⟩

/-- A level whose entry is present changes nothing. -/
theorem descended_present {t i : Nat} {π : List Nat}
    (tables : Tables PML4 s.mem s.taken paths) (ht : paths t = some π) (hπ : π.length < 3)
    (hi : i < 512) (hpresent : presentField (entry s.mem t i) ≠ 0) :
    Descended PML4 paths s s t i (tableAddr (entry s.mem t i)) π paths where
  tables := tables
  extends' _ _ h := h
  child_path := tables.edge t π i ht hπ hi hpresent
  present := hpresent
  points := rfl
  only _ _ _ _ _ := .inr rfl
  lookup_eq _ _ _ _ _ _ := rfl

/-- A walk through an entry that was not present and now points at an empty table still finds
nothing; every other walk reads the same entries. -/
theorem Tables.lookupFrom_table (tables : Tables PML4 m taken paths) {t i c : Nat}
    {π : List Nat} (ht : paths t = some π) (hπ : π.length < 3)
    (only : OnlyEntry paths m m' t i) (absent : presentField (entry m t i) = 0)
    (points : tableAddr (entry m' t i) = c)
    (empty : ∀ j < 512, presentField (entry m' c j) = 0) :
    ∀ (js : List Nat) (x : Nat) (ρ : List Nat), paths x = some ρ → ρ.length + js.length = 4 →
      (∀ j ∈ js, j < 512) → lookupFrom m' x js = lookupFrom m x js := by
  intro js
  induction js with
  | nil => intro x ρ _ _ _; rfl
  | cons j rest ih =>
    intro x ρ hx hlen hlt
    have hj := hlt j List.mem_cons_self
    rcases only x ρ j hx hj with ⟨rfl, rfl⟩ | hentry
    · rw [ht] at hx
      cases hx
      cases rest with
      | nil =>
        simp only [List.length_cons, List.length_nil] at hlen
        omega
      | cons k rest =>
        have hk := hlt k (List.mem_cons_of_mem _ List.mem_cons_self)
        rw [lookupFrom_empty absent, lookupFrom_cons_cons, points,
          lookupFrom_empty (empty k hk), ite_self]
    · refine lookupFrom_step hentry fun hpresent hrest => ?_
      have hpos := List.length_pos_iff.mpr hrest
      rw [List.length_cons] at hlen
      refine ih _ (ρ ++ [j]) (tables.edge x ρ j hx (by omega) hj hpresent) ?_ ?_
      · rw [List.length_append, List.length_singleton]
        omega
      · intro j' hj'
        exact hlt j' (List.mem_cons_of_mem _ hj')

/-- A fresh frame is no table yet. -/
theorem Tables.ne_of_fresh {c x : Nat} {ρ : List Nat} (tables : Tables PML4 s.mem s.taken paths)
    (fresh : Fresh PML4 (s.taken ++ [c])) (hx : paths x = some ρ) : x ≠ c := by
  have hcmem : c ∈ s.taken ++ [c] := List.mem_append_right _ (List.mem_singleton_self c)
  rintro rfl
  rcases tables.owned x ρ hx with rfl | hmem
  · exact fresh.root hcmem
  · exact (List.nodup_append.mp fresh.nodup).2.2 x hmem x (List.mem_singleton_self x) rfl

/-- An entry that was not present now points at a fresh table with no entries, and no other entry
of a table has changed. -/
theorem descended_of_link {t i c : Nat} {π : List Nat} {m' : Mem} {pmem : σ}
    (tables : Tables PML4 s.mem s.taken paths) (ht : paths t = some π) (hπ : π.length < 3)
    (absent : presentField (entry s.mem t i) = 0) (fresh : Fresh PML4 (s.taken ++ [c]))
    (only : OnlyEntry paths s.mem m' t i) (empty : ∀ j < 512, presentField (entry m' c j) = 0)
    (points : tableAddr (entry m' t i) = c) (present : presentField (entry m' t i) ≠ 0) :
    Descended PML4 paths s { mem := m', pmem := pmem, taken := s.taken ++ [c] } t i c π
      (fun x => if x = c then some (π ++ [i]) else paths x) := by
  have hcmem : c ∈ s.taken ++ [c] := List.mem_append_right _ (List.mem_singleton_self c)
  have hnone : ∀ x ρ, paths x = some ρ → x ≠ c := fun x ρ => tables.ne_of_fresh fresh
  constructor
  · constructor
    · rw [if_neg (hnone PML4 [] tables.root)]
      exact tables.root
    · intro x ρ hx
      by_cases hxc : x = c
      · exact .inr (hxc ▸ hcmem)
      · rw [if_neg hxc] at hx
        exact (tables.owned x ρ hx).imp_right (List.mem_append_left _)
    · intro x ρ hx
      by_cases hxc : x = c
      · exact hxc ▸ fresh.aligned c hcmem
      · rw [if_neg hxc] at hx
        exact tables.aligned x ρ hx
    · intro x ρ j hx hρ hj hp
      by_cases hxc : x = c
      · subst hxc
        exact absurd (empty j hj) hp
      · rw [if_neg hxc] at hx
        rcases only x ρ j hx hj with ⟨rfl, rfl⟩ | hentry
        · obtain rfl := Option.some.inj (ht.symm.trans hx)
          rw [points, if_pos rfl]
        · rw [hentry] at hp ⊢
          have hedge := tables.edge x ρ j hx hρ hj hp
          rw [if_neg (hnone _ _ hedge), hedge]
  · intro x ρ hx
    rw [if_neg (hnone x ρ hx), hx]
  · exact if_pos rfl
  · exact present
  · exact points
  · exact only
  · exact tables.lookupFrom_table ht hπ only absent points empty

/-- A level whose entry is not present links a fresh, empty table there. -/
theorem descended_created {t i c : Nat} {π : List Nat} {pmem : σ}
    (tables : Tables PML4 s.mem s.taken paths) (ht : paths t = some π) (hπ : π.length < 3)
    (hi : i < 512) (absent : presentField (entry s.mem t i) = 0)
    (fresh : Fresh PML4 (s.taken ++ [c])) :
    Descended PML4 paths s
      { mem := setEntry (memset s.mem c 0 PAGE_SZ) (entryAddr t i) (c >>> PAGE_OFFSET_BITS)
        pmem := pmem
        taken := s.taken ++ [c] }
      t i c π (fun x => if x = c then some (π ++ [i]) else paths x) := by
  have hcmem : c ∈ s.taken ++ [c] := List.mem_append_right _ (List.mem_singleton_self c)
  have hca := fresh.aligned c hcmem
  have hnone : ∀ x ρ, paths x = some ρ → x ≠ c := fun x ρ => tables.ne_of_fresh fresh
  have hclear : ∀ x ρ j, paths x = some ρ → j < 512 →
      entry (memset s.mem c 0 PAGE_SZ) x j = entry s.mem x j :=
    fun x ρ j hx hj => tables.entry_memset hca hx (hnone x ρ hx) hj
  have cleared : Tables PML4 (memset s.mem c 0 PAGE_SZ) s.taken paths := by
    refine ⟨tables.root, tables.owned, tables.aligned, ?_⟩
    intro x ρ j hx hρ hj hp
    rw [hclear x ρ j hx hj] at hp ⊢
    exact tables.edge x ρ j hx hρ hj hp
  refine descended_of_link tables ht hπ absent fresh ?_ ?_ ?_ ?_
  · intro x ρ j hx hj
    rcases cleared.onlyEntry_setEntry ht hi x ρ j hx hj with h | h
    · exact .inl h
    · exact .inr (h.trans (hclear x ρ j hx hj))
  · exact fun j hj => entry_linked_table (tables.aligned t π ht) hca (hnone t π ht) hi hj
  · exact (tableAddr_setEntry hca).trans (Nat.mod_eq_of_lt (fresh.low c hcmem))
  · have hpresent := (setEntry_fields (memset s.mem c 0 PAGE_SZ) (entryAddr t i)
      (c >>> PAGE_OFFSET_BITS)).1
    rw [entry, hpresent]
    decide

/-- **One upper level of `allocate_page`** puts the table below its entry in place and leaves
the page map as it was. -/
theorem getOrCreate_descends {text : String} {t i child : Nat} {π : List Nat}
    (tables : Tables PML4 s.mem s.taken paths) (ht : paths t = some π) (hπ : π.length < 3)
    (hi : i < 512) (ok : getOrCreate requestFrame text (entryAddr t i) s = .ok (child, s'))
    (fresh : Fresh PML4 s'.taken) : ∃ paths', Descended PML4 paths s s' t i child π paths' := by
  rcases getOrCreate_ok ok with ⟨hpresent, rfl, rfl⟩ | ⟨absent, -, pmem, -, rfl⟩
  · exact ⟨paths, descended_present tables ht hπ hi hpresent⟩
  · exact ⟨_, descended_created tables ht hπ hi absent fresh⟩

end OneLevel

/-! ## The upper levels -/

section Descend

variable {σ : Type} (requestFrame : σ → Except Fault (Nat × σ))

/-- Some upper levels of `allocate_page` from a table on, with the tables that it goes through. A
level is the text of its assertion and its index. -/
def descendFrom : List (String × Nat) → Nat → State σ → Except Fault (List Nat × State σ)
  | [], _, s => .ok ([], s)
  | (text, i) :: rest, table, s => do
    let (child, s) ← getOrCreate requestFrame text (entryAddr table i) s
    let (tables, s) ← descendFrom rest child s
    return (child :: tables, s)

/-- The three upper levels for an address. -/
def levels (vaddr : Nat) : List (String × Nat) :=
  let index := PageIndexer.new vaddr
  [("PDPT != nullptr", index.pml4), ("PD != nullptr", index.pdpt), ("PT != nullptr", index.pd)]

theorem levels_map_snd (vaddr : Nat) : (levels vaddr).map Prod.snd = upper vaddr := rfl

theorem levels_lt {vaddr : Nat} {l : String × Nat} (h : l ∈ levels vaddr) : l.2 < 512 :=
  upper_lt (List.mem_map_of_mem h)

variable {requestFrame} {s s' u w : State σ} {table : Nat} {tables : List Nat}
variable {paths' paths'' : Nat → Option (List Nat)}

theorem descendFrom_cons {text : String} {i : Nat} {rest : List (String × Nat)}
    (ok : descendFrom requestFrame ((text, i) :: rest) table s = .ok (tables, u)) :
    ∃ child s' tables', getOrCreate requestFrame text (entryAddr table i) s = .ok (child, s') ∧
      descendFrom requestFrame rest child s' = .ok (tables', u) ∧ tables = child :: tables' := by
  obtain ⟨⟨child, s'⟩, hlevel, ok⟩ := Except.bind_eq_ok.mp ok
  obtain ⟨⟨tables', u'⟩, hrest, ok⟩ := Except.bind_eq_ok.mp ok
  obtain ⟨rfl, rfl⟩ := Prod.mk.inj (Except.ok.inj ok)
  exact ⟨child, s', tables', hlevel, hrest, rfl⟩

theorem descendFrom_taken {lv : List (String × Nat)}
    (ok : descendFrom requestFrame lv table s = .ok (tables, u)) :
    ∃ more, u.taken = s.taken ++ more := by
  induction lv generalizing table tables s with
  | nil =>
    cases ok
    exact ⟨[], (List.append_nil _).symm⟩
  | cons l rest ih =>
    obtain ⟨child, s', tables', hlevel, hrest, -⟩ := descendFrom_cons ok
    obtain ⟨first, hfirst⟩ := getOrCreate_taken hlevel
    obtain ⟨more, hmore⟩ := ih hrest
    exact ⟨first ++ more, by rw [hmore, hfirst, List.append_assoc]⟩

/-- `allocate_page` descends, and sets an entry of the last table. -/
theorem allocatePage_eq (vaddr paddr : Nat) (s : State σ) :
    allocatePage requestFrame PML4 vaddr paddr s = do
      let (tables, s) ← descendFrom requestFrame (levels vaddr) PML4 s
      return { s with
        mem := setEntry s.mem (entryAddr (tables.getLastD PML4) (PageIndexer.new vaddr).pt)
          (paddr >>> PAGE_OFFSET_BITS) } := by
  simp only [allocatePage, levels, descendFrom, bind_assoc, pure_bind]
  rfl

theorem allocatePage_descends {vaddr paddr : Nat}
    (ok : allocatePage requestFrame PML4 vaddr paddr s = .ok u) :
    ∃ tables s', descendFrom requestFrame (levels vaddr) PML4 s = .ok (tables, s') ∧
      u.mem = setEntry s'.mem (entryAddr (tables.getLastD PML4) (PageIndexer.new vaddr).pt)
        (paddr >>> PAGE_OFFSET_BITS) ∧ u.taken = s'.taken := by
  rw [allocatePage_eq] at ok
  obtain ⟨⟨tables, s'⟩, hdescend, ok⟩ := Except.bind_eq_ok.mp ok
  obtain rfl := Except.ok.inj ok
  exact ⟨tables, s', hdescend, rfl, rfl⟩

/-- The tree after some calls: its tables are those there were and new ones, and the entries of
upper tables that were present are as they were. -/
structure Grows (PML4 : Nat) (paths paths' : Nat → Option (List Nat)) (s u : State σ) : Prop where
  tables : Tables PML4 u.mem u.taken paths'
  extends' : ∀ x ρ, paths x = some ρ → paths' x = some ρ
  keeps : ∀ x ρ j, paths x = some ρ → ρ.length < 3 → j < 512 →
    presentField (entry s.mem x j) ≠ 0 → entry u.mem x j = entry s.mem x j

theorem Grows.trans (first : Grows PML4 paths paths' s u) (second : Grows PML4 paths' paths'' u w) :
    Grows PML4 paths paths'' s w where
  tables := second.tables
  extends' x ρ h := second.extends' x ρ (first.extends' x ρ h)
  keeps x ρ j hx hρ hj present := by
    have hfirst := first.keeps x ρ j hx hρ hj present
    rw [← hfirst] at present
    exact (second.keeps x ρ j (first.extends' x ρ hx) hρ hj present).trans hfirst

/-- The walk to a table goes on leading there. -/
theorem Grows.tableAt {is ρ : List Nat} {x f : Nat} (grows : Grows PML4 paths paths' s u)
    (sound : Tables PML4 s.mem s.taken paths) (hx : paths x = some ρ)
    (hlen : ρ.length + is.length ≤ 3) (hlt : ∀ i ∈ is, i < 512)
    (hat : tableAt s.mem x is = some f) : tableAt u.mem x is = some f := by
  induction is generalizing x ρ with
  | nil => exact hat
  | cons i is ih =>
    rw [List.length_cons] at hlen
    have hi := hlt i List.mem_cons_self
    rw [Paging.tableAt] at hat ⊢
    split at hat
    · cases hat
    · next present =>
      have hsame := grows.keeps x ρ i hx (by omega) hi present
      have hlen' : (ρ ++ [i]).length = ρ.length + 1 := List.length_append
      rw [hsame, if_neg present]
      exact ih (sound.edge x ρ i hx (by omega) hi present) (by omega)
        (fun j hj => hlt j (List.mem_cons_of_mem _ hj)) hat

/-- A level leaves the entries that were present: it sets its own one only where that was not. -/
theorem getOrCreate_grows {text : String} {i child : Nat} {ρ : List Nat}
    (level : Descended PML4 paths s s' table i child ρ paths')
    (ok : getOrCreate requestFrame text (entryAddr table i) s = .ok (child, s')) :
    Grows PML4 paths paths' s s' := by
  refine ⟨level.tables, level.extends', ?_⟩
  intro x π j hx _ hj present
  rcases level.only x π j hx hj with ⟨rfl, rfl⟩ | hsame
  · rcases getOrCreate_ok ok with ⟨-, -, rfl⟩ | ⟨absent, -⟩
    · rfl
    · exact absurd absent present
  · exact hsame

/-- What a descent leaves: the tables have grown, the walk along its indices comes to its last
table, and the page map is as it was. -/
structure Descent (PML4 : Nat) (paths paths' : Nat → Option (List Nat)) (s u : State σ)
    (table : Nat) (ρ is : List Nat) (last : Nat) : Prop where
  grows : Grows PML4 paths paths' s u
  last_path : paths' last = some (ρ ++ is)
  leads : tableAt u.mem table is = some last
  lookup_eq : ∀ js x π, paths x = some π → π.length + js.length = 4 → (∀ j ∈ js, j < 512) →
    lookupFrom u.mem x js = lookupFrom s.mem x js

/-- One level, and then the rest. -/
theorem Descended.descent {i child last : Nat} {ρ is : List Nat}
    (level : Descended PML4 paths s s' table i child ρ paths') (grows : Grows PML4 paths paths' s s')
    (hpath : paths table = some ρ) (hlen : ρ.length < 3) (hi : i < 512)
    (rest : Descent PML4 paths' paths'' s' u child (ρ ++ [i]) is last) :
    Descent PML4 paths paths'' s u table ρ (i :: is) last := by
  have hentry : entry u.mem table i = entry s'.mem table i :=
    rest.grows.keeps table ρ i (level.extends' table ρ hpath) hlen hi level.present
  refine ⟨grows.trans rest.grows, ?_, ?_, ?_⟩
  · rw [rest.last_path, List.append_assoc, List.singleton_append]
  · rw [tableAt, hentry, if_neg level.present, level.points]
    exact rest.leads
  · intro js x π hx hjs hlt
    rw [rest.lookup_eq js x π (level.extends' x π hx) hjs hlt, level.lookup_eq js x π hx hjs hlt]

theorem descendFrom_descent {lv : List (String × Nat)} {ρ : List Nat} (hlt : ∀ l ∈ lv, l.2 < 512)
    (sound : Tables PML4 s.mem s.taken paths) (hpath : paths table = some ρ)
    (hlen : ρ.length + lv.length ≤ 3)
    (ok : descendFrom requestFrame lv table s = .ok (tables, u)) (fresh : Fresh PML4 u.taken) :
    ∃ paths', Descent PML4 paths paths' s u table ρ (lv.map Prod.snd) (tables.getLastD table) := by
  induction lv generalizing table tables s ρ paths with
  | nil =>
    cases ok
    exact ⟨paths, ⟨sound, fun _ _ h => h, fun _ _ _ _ _ _ _ => rfl⟩,
      hpath.trans (congrArg some (List.append_nil ρ).symm), rfl, fun _ _ _ _ _ _ => rfl⟩
  | cons l rest ih =>
    obtain ⟨child, s', tables', hlevel, hrest, rfl⟩ := descendFrom_cons ok
    rw [List.length_cons] at hlen
    have hi := hlt l List.mem_cons_self
    obtain ⟨more, hmore⟩ := descendFrom_taken hrest
    obtain ⟨paths₁, level⟩ := getOrCreate_descends sound hpath (by omega) hi hlevel
      (.of_append (hmore ▸ fresh))
    have hlen' : (ρ ++ [l.2]).length = ρ.length + 1 := List.length_append
    obtain ⟨paths₂, descent⟩ := ih (fun l hl => hlt l (List.mem_cons_of_mem _ hl))
      level.tables level.child_path (by omega) hrest
    refine ⟨paths₂, ?_⟩
    rw [List.getLastD_cons]
    exact level.descent (getOrCreate_grows level hlevel) hpath (by omega) hi descent

end Descend

/-! ## A call -/

section Calls

variable {σ : Type} {requestFrame : σ → Except Fault (Nat × σ)} {s t u : State σ}
variable {calls : List (Nat × Nat)}

/-- Tables of different levels are different, so an entry of one is none of the other. -/
theorem OnlyEntry.keeps {x y i j : Nat} {π ρ : List Nat} (only : OnlyEntry paths m m' y i)
    (hx : paths x = some ρ) (hy : paths y = some π) (hlen : ρ.length ≠ π.length) (hj : j < 512) :
    entry m' x j = entry m x j := by
  rcases only x ρ j hx hj with ⟨rfl, -⟩ | h
  · rw [hy] at hx
    cases hx
    exact absurd rfl hlen
  · exact h

/-- What a completed call takes. -/
theorem allocatePage_taken {vaddr paddr : Nat}
    (ok : allocatePage requestFrame PML4 vaddr paddr s = .ok u) :
    ∃ more, u.taken = s.taken ++ more := by
  obtain ⟨tables, s', hdescend, -, htaken⟩ := allocatePage_descends ok
  rw [htaken]
  exact descendFrom_taken hdescend

/-- The entry that a call leaves for its page. -/
structure Maps (e paddr : Nat) : Prop where
  present : presentField e = 1
  writable : rwField e = 1
  frame : addrField e = (paddr >>> PAGE_OFFSET_BITS) % 2 ^ 32

theorem setEntry_maps (m : Mem) (a paddr : Nat) :
    Maps ((setEntry m a (paddr >>> PAGE_OFFSET_BITS)).read64 a) paddr := by
  obtain ⟨present, writable, frame⟩ := setEntry_fields m a (paddr >>> PAGE_OFFSET_BITS)
  exact ⟨present, writable, frame⟩

/-- An assignment to a page table links no table, so the tables stay as they were. -/
theorem Tables.of_page {taken : List Nat} {y i : Nat} {π : List Nat}
    (tables : Tables PML4 m taken paths) (hy : paths y = some π) (hπ : π.length = 3)
    (only : OnlyEntry paths m m' y i) : Tables PML4 m' taken paths := by
  refine ⟨tables.root, tables.owned, tables.aligned, ?_⟩
  intro x ρ j hx hρ hj hp
  have hsame : entry m' x j = entry m x j := only.keeps hx hy (by omega) hj
  rw [hsame] at hp ⊢
  exact tables.edge x ρ j hx hρ hj hp

/-- What a completed call does: a descent, and then an assignment in its last table. -/
theorem allocatePage_cases {vaddr paddr : Nat} (sound : Tables PML4 s.mem s.taken paths)
    (ok : allocatePage requestFrame PML4 vaddr paddr s = .ok u) (fresh : Fresh PML4 u.taken) :
    ∃ paths' s' PT, Descent PML4 paths paths' s s' PML4 [] (upper vaddr) PT ∧
      Grows PML4 paths' paths' s' u ∧
      OnlyEntry paths' s'.mem u.mem PT (PageIndexer.new vaddr).pt ∧
      Maps (entry u.mem PT (PageIndexer.new vaddr).pt) paddr := by
  obtain ⟨tables, s', hdescend, hmem, htaken⟩ := allocatePage_descends ok
  obtain ⟨paths', descent⟩ := descendFrom_descent (fun l => levels_lt) sound sound.root
    (Nat.le_refl 3) hdescend (htaken ▸ fresh)
  have only : OnlyEntry paths' s'.mem u.mem (tables.getLastD PML4) (PageIndexer.new vaddr).pt := by
    rw [hmem]
    exact descent.grows.tables.onlyEntry_setEntry descent.last_path (pt_lt vaddr)
  refine ⟨paths', s', tables.getLastD PML4, descent, ⟨?_, fun _ _ h => h, ?_⟩, only, ?_⟩
  · rw [htaken]
    exact descent.grows.tables.of_page descent.last_path rfl only
  · intro x ρ j hx hρ hj _
    exact only.keeps hx descent.last_path (Nat.ne_of_lt hρ) hj
  · rw [hmem]
    exact setEntry_maps s'.mem _ paddr

/-- **What a completed call does to the page map**: it sets the entry of its own page number
and leaves every other one as it was. The tables stay separate. -/
theorem allocatePage_spec {vaddr paddr : Nat} (tables : Tables PML4 s.mem s.taken paths)
    (ok : allocatePage requestFrame PML4 vaddr paddr s = .ok u) (fresh : Fresh PML4 u.taken) :
    (∃ paths', Tables PML4 u.mem u.taken paths') ∧
      (∃ e, lookup PML4 u.mem vaddr = some e ∧ Maps e paddr) ∧
      ∀ w, path w ≠ path vaddr → lookup PML4 u.mem w = lookup PML4 s.mem w := by
  obtain ⟨paths', s', PT, descent, grows, only, maps⟩ := allocatePage_cases tables ok fresh
  have hroot := descent.grows.tables.root
  refine ⟨⟨paths', grows.tables⟩, ⟨entry u.mem PT (PageIndexer.new vaddr).pt, ?_, maps⟩, ?_⟩
  · -- the entries of the upper levels were not touched again
    have hwalk : tableAt u.mem PML4 (upper vaddr) = some PT :=
      grows.tableAt descent.grows.tables hroot (Nat.le_refl 3) (fun i => upper_lt) descent.leads
    have hpresent : presentField (entry u.mem PT (PageIndexer.new vaddr).pt) ≠ 0 := by
      rw [maps.present]
      decide
    have hpath : path vaddr = upper vaddr ++ [(PageIndexer.new vaddr).pt] := rfl
    rw [lookup, hpath, lookupFrom_tableAt, hwalk, Option.bind_some, lookupFrom_single,
      if_neg hpresent]
  · intro w hne
    have hlen : ([] : List Nat).length + (path w).length = 4 := rfl
    have hbound : ∀ j ∈ path w, j < 512 := fun j hj => path_lt hj
    calc lookup PML4 u.mem w
        = lookup PML4 s'.mem w := descent.grows.tables.lookupFrom_page descent.last_path rfl only
          (path w) PML4 [] hroot hlen hbound hne
      _ = lookup PML4 s.mem w := descent.lookup_eq _ _ _ tables.root hlen hbound

theorem allocatePage_grows {vaddr paddr : Nat} (sound : Tables PML4 s.mem s.taken paths)
    (ok : allocatePage requestFrame PML4 vaddr paddr s = .ok u) (fresh : Fresh PML4 u.taken) :
    ∃ paths', Grows PML4 paths paths' s u := by
  obtain ⟨paths', s', PT, descent, grows, -⟩ := allocatePage_cases sound ok fresh
  exact ⟨paths', descent.grows.trans grows⟩

/-! ## A run of calls -/

theorem taken_of_run {Adm : State σ → Nat × Nat → Prop}
    (run : Run (step requestFrame PML4) Adm s calls t) : ∃ more, t.taken = s.taken ++ more := by
  induction run with
  | nil s => exact ⟨[], (List.append_nil _).symm⟩
  | cons _ ok _ ih =>
    obtain ⟨more₁, h₁⟩ := allocatePage_taken ok
    obtain ⟨more₂, h₂⟩ := ih
    exact ⟨more₁ ++ more₂, by rw [h₂, h₁, List.append_assoc]⟩

/-- The page map after a run: where no call of the run named a page, it is what it was; where
one did, it is what the last such call set. -/
theorem lookup_of_run {Adm : State σ → Nat × Nat → Prop}
    (run : Run (step requestFrame PML4) Adm s calls t) (fresh : Fresh PML4 t.taken)
    (tables : Tables PML4 s.mem s.taken paths) :
    (∃ paths', Tables PML4 t.mem t.taken paths') ∧
      (∀ w, (∀ c ∈ calls, path c.1 ≠ path w) → lookup PML4 t.mem w = lookup PML4 s.mem w) ∧
      ∀ w pre c post, calls = pre ++ c :: post → path c.1 = path w →
        (∀ c' ∈ post, path c'.1 ≠ path w) → ∃ e, lookup PML4 t.mem w = some e ∧ Maps e c.2 := by
  induction run generalizing paths with
  | nil s =>
    refine ⟨⟨paths, tables⟩, fun _ _ => rfl, ?_⟩
    intro w pre c post hsplit
    exact absurd hsplit.symm (by simp)
  | @cons s s₁ t call calls _ ok rest ih =>
    obtain ⟨_, htaken⟩ := taken_of_run rest
    obtain ⟨⟨paths₁, tables₁⟩, ⟨e, he, hmaps⟩, hothers⟩ :=
      allocatePage_spec tables ok (Fresh.of_append (htaken ▸ fresh))
    obtain ⟨htables, hkept, hlast⟩ := ih fresh tables₁
    refine ⟨htables, ?_, ?_⟩
    · intro w hnone
      rw [hkept w fun c hc => hnone c (List.mem_cons_of_mem _ hc),
        hothers w (hnone call List.mem_cons_self).symm]
    · intro w pre c post hsplit hc hpost
      cases pre with
      | nil =>
        obtain ⟨rfl, rfl⟩ := List.cons.inj hsplit
        refine ⟨e, ?_, hmaps⟩
        rw [hkept w hpost, lookup, ← hc]
        exact he
      | cons _ pre =>
        obtain ⟨rfl, rfl⟩ := List.cons.inj hsplit
        exact hlast w pre c post rfl hc hpost

/-- A PML4 of zeroes is a tree of one table. -/
theorem tables_zero (haligned : PML4 % PAGE_SZ = 0)
    (zero : ∀ x, PML4 ≤ x → x < PML4 + PAGE_SZ → m x = 0) :
    Tables PML4 m [] (fun x => if x = PML4 then some [] else none) ∧
      ∀ i < 512, presentField (entry m PML4 i) = 0 := by
  have hentry : ∀ i < 512, presentField (entry m PML4 i) = 0 := by
    intro i hi
    have hzero : entry m PML4 i = 0 := by
      refine Mem.readLE_eq_zero fun x h1 h2 => zero x ?_ ?_
      · simp only [entryAddr] at h1
        omega
      · simp only [entryAddr] at h2
        simp only [PAGE_SZ, FRAME_SZ]
        omega
    rw [hzero]
    rfl
  refine ⟨⟨if_pos rfl, ?_, ?_, ?_⟩, hentry⟩
  · intro x π hx
    by_cases h : x = PML4
    · exact .inl h
    · rw [if_neg h] at hx
      cases hx
  · intro x π hx
    by_cases h : x = PML4
    · exact h ▸ haligned
    · rw [if_neg h] at hx
      cases hx
  · intro x π i hx _ hi hp
    by_cases h : x = PML4
    · subst h
      exact absurd (hentry i hi) hp
    · rw [if_neg h] at hx
      cases hx

/-- The last of the calls that satisfy a property, when there is one. -/
theorem exists_last {α : Type} {P : α → Prop} : ∀ {l : List α}, (∃ a ∈ l, P a) →
    ∃ pre a post, l = pre ++ a :: post ∧ P a ∧ ∀ b ∈ post, ¬ P b := by
  intro l
  induction l with
  | nil => rintro ⟨a, ha, -⟩; cases ha
  | cons x rest ih =>
    intro h
    by_cases hrest : ∃ a ∈ rest, P a
    · obtain ⟨pre, a, post, rfl, ha, hpost⟩ := ih hrest
      exact ⟨x :: pre, a, post, rfl, ha, hpost⟩
    · obtain ⟨a, ha, hPa⟩ := h
      rcases List.mem_cons.mp ha with rfl | ha
      · exact ⟨[], a, rest, rfl, hPa, fun b hb hPb => hrest ⟨b, hb, hPb⟩⟩
      · exact absurd ⟨a, ha, hPa⟩ hrest

/-- **The page tables refine a partial map from page numbers to frames.** From a PML4 of zeroes,
after any completed calls with frames below 2^44 and fresh table frames: an address is
allocated exactly when some call named its page; its page table entry is then present and
writable and holds the frame number of the last such call; and one more call changes the
entries of no other page. -/
theorem pageTables_refine_map {mem : Mem} {pmem : σ} (haligned : PML4 % PAGE_SZ = 0)
    (zero : ∀ x, PML4 ≤ x → x < PML4 + PAGE_SZ → mem x = 0)
    (run : Run (step requestFrame PML4) (fun _ call => call.2 < 2 ^ 44)
      ⟨mem, pmem, []⟩ calls t) (fresh : Fresh PML4 t.taken) :
    (∀ w, isPageAllocated PML4 t.mem w = true ↔
        ∃ call ∈ calls, pageNumber call.1 = pageNumber w) ∧
      (∀ w pre call post, calls = pre ++ call :: post → pageNumber call.1 = pageNumber w →
        (∀ later ∈ post, pageNumber later.1 ≠ pageNumber w) →
          ∃ e, lookup PML4 t.mem w = some e ∧ presentField e = 1 ∧ rwField e = 1 ∧
            addrField e = call.2 / 2 ^ 12) ∧
      ∀ call u, call.2 < 2 ^ 44 → step requestFrame PML4 t call = .ok u → Fresh PML4 u.taken →
        ∀ w, pageNumber w ≠ pageNumber call.1 → lookup PML4 u.mem w = lookup PML4 t.mem w := by
  obtain ⟨tables, hempty⟩ := tables_zero haligned zero
  obtain ⟨⟨paths, tables'⟩, hkept, hlast⟩ := lookup_of_run run fresh tables
  have hsmall : ∀ call ∈ calls, call.2 < 2 ^ 44 := run.forall_of_adm fun _ _ h => h
  have hset : ∀ w pre call post, calls = pre ++ call :: post →
      pageNumber call.1 = pageNumber w → (∀ later ∈ post, pageNumber later.1 ≠ pageNumber w) →
      ∃ e, lookup PML4 t.mem w = some e ∧ presentField e = 1 ∧ rwField e = 1 ∧
        addrField e = call.2 / 2 ^ 12 := by
    intro w pre call post hsplit hcall hpost
    obtain ⟨e, he, hmaps⟩ := hlast w pre call post hsplit (path_inj.mpr hcall)
      fun later h => fun heq => hpost later h (path_inj.mp heq)
    have hpaddr := hsmall call (by rw [hsplit]; exact List.mem_append_right _ List.mem_cons_self)
    have hframe := hmaps.frame
    rw [PAGE_OFFSET_BITS, Nat.shiftRight_eq_div_pow] at hframe
    exact ⟨e, he, hmaps.present, hmaps.writable, by omega⟩
  refine ⟨?_, hset, ?_⟩
  · intro w
    rw [isPageAllocated_eq]
    constructor
    · intro hsome
      by_contra hnone
      have hfirst : (PageIndexer.new w).pml4 ∈ path w := List.mem_cons_self
      have hstart : lookup PML4 mem w = none := lookupFrom_empty (hempty _ (path_lt hfirst))
      rw [hkept w fun c hc heq => hnone ⟨c, hc, path_inj.mp heq⟩, hstart] at hsome
      cases hsome
    · intro h
      obtain ⟨pre, call, post, hsplit, hcall, hpost⟩ := exists_last h
      obtain ⟨e, he, -⟩ := hset w pre call post hsplit hcall hpost
      rw [he]
      rfl
  · intro call u _ ok fresh' w hne
    exact (allocatePage_spec tables' ok fresh').2.2 w fun heq => hne (path_inj.mp heq)

theorem memset_eq (m : Mem) (p : Nat) (v : ByteMemory.Byte) (n : Nat) :
    memset m p v n = fun x => if p ≤ x ∧ x < p + n then v else m x :=
  funext fun _ => Mem.fill_apply n m

/-- An allocator that hands out the frames of a list, and then null. -/
def tape : List Nat → Except Fault (Nat × List Nat)
  | [] => .ok (0, [])
  | frame :: rest => .ok (frame, rest)

/-- Memory of zeroes, and four frames for tables. -/
def zeroed : State (List Nat) := ⟨fun _ => 0, [0x2000, 0x3000, 0x4000, 0x5000], []⟩

/-- Three calls: the second page has a page table of its own and shares the other tables of the
first, and the third call is for the first page again. -/
def threeCalls : List (Nat × Nat) :=
  [(0x99999999999, 0x7000), (0x99999a00000, 0x8000), (0x99999999000, 0x9000)]

theorem three_calls : ∃ s t : State (List Nat),
    step tape 0x1000 zeroed (0x99999999999, 0x7000) = .ok s ∧
      Run (step tape 0x1000) (fun _ call => call.2 < 2 ^ 44) s threeCalls.tail t ∧
      t.taken = [0x2000, 0x3000, 0x4000, 0x5000] := by
  obtain ⟨⟨s, t⟩, ok, htaken⟩ : ∃ r : State (List Nat) × State (List Nat), (do
      let s ← step tape 0x1000 zeroed (0x99999999999, 0x7000)
      let u ← step tape 0x1000 s (0x99999a00000, 0x8000)
      let t ← step tape 0x1000 u (0x99999999000, 0x9000)
      return (s, t)) = .ok r ∧ r.2.taken = [0x2000, 0x3000, 0x4000, 0x5000] := by
    apply Except.ok_of_toOption_map
    simp only [step, allocatePage, getOrCreate, memset_eq]
    decide +kernel
  obtain ⟨_, hfirst, ok⟩ := Except.bind_eq_ok.mp ok
  obtain ⟨_, hsecond, ok⟩ := Except.bind_eq_ok.mp ok
  obtain ⟨_, hthird, ok⟩ := Except.bind_eq_ok.mp ok
  obtain ⟨rfl, rfl⟩ := Prod.mk.inj (Except.ok.inj ok)
  exact ⟨_, _, hfirst, .cons (by decide) hsecond (.cons (by decide) hthird (.nil _)), htaken⟩

/-- The two pages are mapped, the first one as by its last call, and no other one is. -/
theorem three_calls_refine_map : ∃ t : State (List Nat),
    Run (step tape 0x1000) (fun _ call => call.2 < 2 ^ 44) zeroed threeCalls t ∧
    Fresh 0x1000 t.taken ∧
    (∃ e, lookup 0x1000 t.mem 0x99999999123 = some e ∧ addrField e = 9) ∧
    (∃ e, lookup 0x1000 t.mem 0x99999a00123 = some e ∧ addrField e = 8) ∧
    isPageAllocated 0x1000 t.mem 0x99999a00123 = true ∧
      isPageAllocated 0x1000 t.mem 0x7000 = false := by
  obtain ⟨s, t, hfirst, rest, htaken⟩ := three_calls
  have run : Run (step tape 0x1000) (fun _ call => call.2 < 2 ^ 44) zeroed threeCalls t :=
    .cons (by decide) hfirst rest
  have fresh : Fresh 0x1000 t.taken := by
    rw [htaken]
    exact ⟨by decide, by decide, by decide, by decide⟩
  obtain ⟨halloc, hlast, -⟩ := pageTables_refine_map (by decide) (fun _ _ _ => rfl) run fresh
  refine ⟨t, run, fresh, ?_, ?_, (halloc _).mpr ⟨_, .tail _ (.head _), by decide⟩, ?_⟩
  · obtain ⟨e, he, -, -, hframe⟩ := hlast 0x99999999123 [(0x99999999999, 0x7000),
      (0x99999a00000, 0x8000)] (0x99999999000, 0x9000) [] rfl (by decide) (by decide)
    exact ⟨e, he, hframe⟩
  · obtain ⟨e, he, -, -, hframe⟩ := hlast 0x99999a00123 [(0x99999999999, 0x7000)]
      (0x99999a00000, 0x8000) [(0x99999999000, 0x9000)] rfl (by decide) (by decide)
    exact ⟨e, he, hframe⟩
  · have hnone : ¬ ∃ call ∈ threeCalls, pageNumber call.1 = pageNumber 0x7000 := by decide
    exact Bool.eq_false_iff.mpr fun h => hnone ((halloc _).mp h)

end Calls

end PrintOS.Paging
