import PrintOS.Laws.Memory.Paging

/-!
# The tables that the code finds again

`allocate_page` links a new table into the tree by its frame number, which has 32 bits in an entry,
and goes on in the table by the pointer that it has. A later call, and `is_page_allocated`, shift
the number back to an address. The number is a bit-field of 32 bits, so the shift is done in 32
bits, and what comes back is the low 32 bits of the address.

For one call on a sound tree the entries on the way hold the tables that it went through, up to 32
bits (`allocatePage_route`), whatever frames the call took. So every table is found again in a run
exactly when all of them are below 4 GiB (`tables_found_iff`).
-/

namespace PrintOS.Paging

open ByteMemory (Mem)

/-! ## Walks -/

theorem take_upper {vaddr k : Nat} (hk : k < 3) :
    (upper vaddr).take (k + 1) = (path vaddr).take (k + 1) := by
  rw [upper, List.take_take, Nat.min_eq_left hk]

/-- `is_page_allocated` goes on in the table that the upper indices of the address lead to. -/
theorem isPageAllocated_tableAt (PML4 : Nat) (m : Mem) (vaddr k : Nat) (hk : k < 3) :
    isPageAllocated PML4 m vaddr =
      ((tableAt m PML4 ((path vaddr).take (k + 1))).bind fun t =>
        lookupFrom m t ((path vaddr).drop (k + 1))).isSome := by
  have hdrop : ∃ j rest, (path vaddr).drop (k + 1) = j :: rest := by
    apply List.exists_cons_of_length_pos
    rw [List.length_drop]
    exact Nat.sub_pos_of_lt (Nat.succ_lt_succ hk)
  obtain ⟨j, rest, hrest⟩ := hdrop
  rw [isPageAllocated_eq, lookup, hrest, ← lookupFrom_tableAt, ← hrest, List.take_append_drop]

section Descend

variable {σ : Type} {requestFrame : σ → Except Fault (Nat × σ)} {s u : State σ} {PML4 table : Nat}
variable {tables : List Nat}

theorem descendFrom_length {lv : List (String × Nat)}
    (ok : descendFrom requestFrame lv table s = .ok (tables, u)) : tables.length = lv.length := by
  induction lv generalizing table tables s with
  | nil =>
    cases ok
    rfl
  | cons l rest ih =>
    obtain ⟨child, s', tables', -, hrest, rfl⟩ := descendFrom_cons ok
    rw [List.length_cons, List.length_cons, ih hrest]

/-! ## What one call writes -/

theorem getOrCreate_outside {text : String} {addr child x : Nat} {s' : State σ}
    (ok : getOrCreate requestFrame text addr s = .ok (child, s')) (hentry : x < addr ∨ addr + 8 ≤ x)
    (hchild : x < child ∨ child + PAGE_SZ ≤ x) : s'.mem x = s.mem x := by
  rcases getOrCreate_ok ok with ⟨-, -, rfl⟩ | ⟨-, -, pmem, -, rfl⟩
  · rfl
  · exact (setEntry_of_outside hentry).trans (Mem.fill_of_outside hchild)

/-- A descent writes to the tables that it goes through, and to no other memory. -/
theorem descendFrom_outside {lv : List (String × Nat)} {x : Nat} (hlt : ∀ l ∈ lv, l.2 < 512)
    (ok : descendFrom requestFrame lv table s = .ok (tables, u))
    (outside : ∀ t ∈ table :: tables, x < t ∨ t + PAGE_SZ ≤ x) : u.mem x = s.mem x := by
  induction lv generalizing table tables s with
  | nil =>
    cases ok
    rfl
  | cons l rest ih =>
    obtain ⟨child, s', tables', hlevel, hrest, rfl⟩ := descendFrom_cons ok
    have hi := hlt l List.mem_cons_self
    have htable := outside table List.mem_cons_self
    rw [ih (fun l hl => hlt l (List.mem_cons_of_mem _ hl)) hrest fun t ht =>
      outside t (List.mem_cons_of_mem _ ht)]
    refine getOrCreate_outside hlevel ?_ (outside child (List.mem_cons_of_mem _ List.mem_cons_self))
    simp only [entryAddr, PAGE_SZ, FRAME_SZ] at htable ⊢
    omega

/-- So it leaves the entries of every other page. -/
theorem entry_of_descendFrom {lv : List (String × Nat)} {y j : Nat} (hlt : ∀ l ∈ lv, l.2 < 512)
    (ok : descendFrom requestFrame lv table s = .ok (tables, u)) (hy : y % PAGE_SZ = 0)
    (hj : j < 512) (aligned : ∀ t ∈ table :: tables, t % PAGE_SZ = 0)
    (other : y ∉ table :: tables) : entry u.mem y j = entry s.mem y j := by
  refine Mem.read64_congr fun x h1 h2 => descendFrom_outside hlt ok fun t ht => ?_
  have hne : y ≠ t := fun h => other (h ▸ ht)
  have ht' := aligned t ht
  simp only [entryAddr, PAGE_SZ, FRAME_SZ] at h1 h2 hy ht' ⊢
  omega

/-! ## Linked tables -/

/-- Each table's entry for the next index is present and holds the next table, as far as 32 bits
go. -/
inductive LinkedDown (m : Mem) : Nat → List Nat → List Nat → Prop
  | nil (t : Nat) : LinkedDown m t [] []
  | cons {t i c : Nat} {is cs : List Nat} (present : presentField (entry m t i) ≠ 0)
    (points : tableAddr (entry m t i) = c % 2 ^ 32) (rest : LinkedDown m c is cs) :
    LinkedDown m t (i :: is) (c :: cs)

/-- The entries of all tables but the last are read. -/
theorem LinkedDown.congr {m m' : Mem} {t : Nat} {is cs : List Nat} (linked : LinkedDown m t is cs)
    (hlt : ∀ i ∈ is, i < 512)
    (same : ∀ y ∈ (t :: cs).dropLast, ∀ j < 512, entry m' y j = entry m y j) :
    LinkedDown m' t is cs := by
  induction linked with
  | nil t => exact .nil t
  | @cons t i c is cs present points rest ih =>
    rw [List.dropLast_cons_cons] at same
    have hentry := same t List.mem_cons_self i (hlt i List.mem_cons_self)
    refine .cons ?_ ?_ (ih (fun j hj => hlt j (List.mem_cons_of_mem _ hj)) fun y hy =>
      same y (List.mem_cons_of_mem _ hy))
    · rw [hentry]
      exact present
    · rw [hentry]
      exact points

/-- As long as the tables on the way are below 4 GiB the code's walk follows the links. -/
theorem tableAt_of_linkedDown {m : Mem} {t k : Nat} {is cs : List Nat}
    (linked : LinkedDown m t is cs) (low : ∀ c ∈ cs.take k, c < 2 ^ 32) (hk : k < cs.length) :
    tableAt m t (is.take (k + 1)) = (cs[k]?).map (· % 2 ^ 32) := by
  induction linked generalizing k with
  | nil t => exact absurd hk (Nat.not_lt_zero k)
  | @cons t i c is cs present points rest ih =>
    rw [List.take_succ_cons, tableAt, if_neg present, points]
    cases k with
    | zero => rfl
    | succ k =>
      rw [List.take_succ_cons] at low
      have hc : c % 2 ^ 32 = c := Nat.mod_eq_of_lt (low c List.mem_cons_self)
      rw [hc, List.getElem?_cons_succ]
      exact ih (fun d hd => low d (List.mem_cons_of_mem _ hd)) (Nat.lt_of_succ_lt_succ hk)

/-- Where the entries on the way are present, `allocate_page` comes to the table that the code's
walk comes to, and has changed nothing. -/
theorem descendFrom_of_tableAt {lv : List (String × Nat)} {f : Nat}
    (hat : tableAt s.mem table (lv.map Prod.snd) = some f) :
    ∃ tables, descendFrom requestFrame lv table s = .ok (tables, s) ∧ tables.getLastD table = f := by
  induction lv generalizing table with
  | nil => exact ⟨[], rfl, Option.some.inj hat⟩
  | cons l rest ih =>
    rw [List.map_cons, tableAt] at hat
    split at hat
    · cases hat
    · next present =>
      obtain ⟨tables, hrest, hlast⟩ := ih hat
      have hlevel : getOrCreate requestFrame l.1 (entryAddr table l.2) s =
          .ok (tableAddr (entry s.mem table l.2), s) := if_neg present
      refine ⟨tableAddr (entry s.mem table l.2) :: tables, ?_, by rwa [List.getLastD_cons]⟩
      simp only [descendFrom, hlevel, Except.ok_bind, hrest]
      rfl

/-! ## One call links the tables that it goes through -/

/-- The frames that `request_frame` answered with: distinct pages, none of them the PML4's, at any
address. -/
structure Distinct (PML4 : Nat) (taken : List Nat) : Prop where
  nodup : taken.Nodup
  aligned : ∀ f ∈ taken, f % PAGE_SZ = 0
  root : PML4 ∉ taken

theorem Distinct.of_append {taken more : List Nat} (h : Distinct PML4 (taken ++ more)) :
    Distinct PML4 taken where
  nodup := (List.nodup_append.mp h.nodup).1
  aligned f hf := h.aligned f (List.mem_append_left _ hf)
  root hmem := h.root (List.mem_append_left _ hmem)

theorem Distinct.not_mem_new {taken new : List Nat} {t : Nat} (h : Distinct PML4 (taken ++ new))
    (owned : t = PML4 ∨ t ∈ taken) : t ∉ new := by
  intro hnew
  rcases owned with rfl | hold
  · exact h.root (List.mem_append_right _ hnew)
  · exact (List.nodup_append.mp h.nodup).2.2 t hold t hnew rfl

theorem Distinct.fresh {taken : List Nat} (h : Distinct PML4 taken) (low : ∀ f ∈ taken, f < 2 ^ 32) :
    Fresh PML4 taken :=
  ⟨h.nodup, h.aligned, low, h.root⟩

/-- What a new table is linked by. -/
theorem entry_created {m : Mem} {t i c : Nat} (hc : c % PAGE_SZ = 0) :
    let m' := setEntry (memset m c 0 PAGE_SZ) (entryAddr t i) (c >>> PAGE_OFFSET_BITS)
    presentField (entry m' t i) ≠ 0 ∧ tableAddr (entry m' t i) = c % 2 ^ 32 := by
  refine ⟨?_, tableAddr_setEntry hc⟩
  have hpresent := (setEntry_fields (memset m c 0 PAGE_SZ) (entryAddr t i)
    (c >>> PAGE_OFFSET_BITS)).1
  rw [entry, hpresent]
  decide

/-- A table that is not gone through again keeps the link to the table below it. -/
theorem LinkedDown.of_descend {lv : List (String × Nat)} {i c : Nat} (hlt : ∀ l ∈ lv, l.2 < 512)
    (ok : descendFrom requestFrame lv c s = .ok (tables, u)) (hi : i < 512)
    (present : presentField (entry s.mem table i) ≠ 0)
    (points : tableAddr (entry s.mem table i) = c % 2 ^ 32)
    (aligned : ∀ t ∈ table :: c :: tables, t % PAGE_SZ = 0) (other : table ∉ c :: tables)
    (below : LinkedDown u.mem c (lv.map Prod.snd) tables) :
    LinkedDown u.mem table (i :: lv.map Prod.snd) (c :: tables) := by
  have hentry : entry u.mem table i = entry s.mem table i :=
    entry_of_descendFrom hlt ok (aligned table List.mem_cons_self) hi
      (fun t ht => aligned t (List.mem_cons_of_mem _ ht)) other
  refine .cons ?_ ?_ below
  · rw [hentry]
    exact present
  · rw [hentry]
    exact points

/-- A new table, linked and empty. -/
theorem getOrCreate_links {text : String} {i child : Nat} {s' : State σ} (hi : i < 512)
    (aligned : table % PAGE_SZ = 0) (owned : table = PML4 ∨ table ∈ s.taken)
    (absent : presentField (entry s.mem table i) = 0)
    (ok : getOrCreate requestFrame text (entryAddr table i) s = .ok (child, s'))
    (distinct : Distinct PML4 s'.taken) :
    s'.taken = s.taken ++ [child] ∧ presentField (entry s'.mem table i) ≠ 0 ∧
      tableAddr (entry s'.mem table i) = child % 2 ^ 32 ∧
      ∀ j < 512, presentField (entry s'.mem child j) = 0 := by
  rcases getOrCreate_ok ok with ⟨present, -, -⟩ | ⟨-, -, pmem, -, rfl⟩
  · exact absurd absent present
  have hnew : child ∈ [child] := List.mem_singleton_self child
  have hca : child % PAGE_SZ = 0 := distinct.aligned child (List.mem_append_right _ hnew)
  have hne : table ≠ child := fun h => distinct.not_mem_new owned (h ▸ hnew)
  obtain ⟨present, points⟩ := entry_created (m := s.mem) (t := table) (i := i) hca
  exact ⟨rfl, present, points, fun j hj => entry_linked_table aligned hca hne hi hj⟩

/-- Below an entry that is not present every table is a new one. -/
theorem descendFrom_absent {lv : List (String × Nat)} (hlt : ∀ l ∈ lv, l.2 < 512)
    (aligned : table % PAGE_SZ = 0) (owned : table = PML4 ∨ table ∈ s.taken)
    (absent : ∀ l ∈ lv.head?, presentField (entry s.mem table l.2) = 0)
    (ok : descendFrom requestFrame lv table s = .ok (tables, u)) (distinct : Distinct PML4 u.taken) :
    u.taken = s.taken ++ tables ∧ LinkedDown u.mem table (lv.map Prod.snd) tables := by
  induction lv generalizing table tables s with
  | nil =>
    cases ok
    exact ⟨(List.append_nil _).symm, .nil _⟩
  | cons l rest ih =>
    obtain ⟨child, s', tables', hlevel, hrest, rfl⟩ := descendFrom_cons ok
    have hi := hlt l List.mem_cons_self
    have hlt' : ∀ l ∈ rest, l.2 < 512 := fun l hl => hlt l (List.mem_cons_of_mem _ hl)
    obtain ⟨more, hmore⟩ := descendFrom_taken hrest
    obtain ⟨htaken, present, points, empty⟩ := getOrCreate_links hi aligned owned
      (absent l rfl) hlevel (.of_append (hmore ▸ distinct))
    have hnew : child ∈ s'.taken := htaken ▸ List.mem_append_right _ List.mem_cons_self
    have hca : child % PAGE_SZ = 0 :=
      distinct.aligned child (hmore ▸ List.mem_append_left _ hnew)
    obtain ⟨htaken', below⟩ := ih hlt' hca (.inr hnew)
      (fun l hl => empty l.2 (hlt' l (List.mem_of_mem_head? hl))) hrest
    rw [htaken, List.append_assoc, List.singleton_append] at htaken'
    rw [htaken'] at distinct
    refine ⟨htaken', .of_descend hlt' hrest hi present points ?_ (distinct.not_mem_new owned) below⟩
    intro t ht
    rcases List.mem_cons.mp ht with rfl | ht
    · exact aligned
    · exact distinct.aligned t (List.mem_append_right _ ht)

/-- What a descent from a table leaves: the tables that it went through are separate pages, linked
down from there. Those that are not on a path yet are the new ones, and come last. -/
structure Route (paths : Nat → Option (List Nat)) (s u : State σ) (table : Nat) (ρ is : List Nat)
    (tables new : List Nat) : Prop where
  linked : LinkedDown u.mem table is tables
  taken : u.taken = s.taken ++ new
  last : new <:+ tables
  below : ∀ t ∈ tables, t ∈ new ∨ ∃ ρ', paths t = some ρ' ∧ ρ.length < ρ'.length
  aligned : ∀ t ∈ table :: tables, t % PAGE_SZ = 0
  nodup : (table :: tables).Nodup

/-- Below an entry that is not present the route is all new. -/
theorem route_absent {lv : List (String × Nat)} {paths : Nat → Option (List Nat)} {ρ : List Nat}
    (hlt : ∀ l ∈ lv, l.2 < 512) (aligned : table % PAGE_SZ = 0)
    (owned : table = PML4 ∨ table ∈ s.taken)
    (absent : ∀ l ∈ lv.head?, presentField (entry s.mem table l.2) = 0)
    (ok : descendFrom requestFrame lv table s = .ok (tables, u)) (distinct : Distinct PML4 u.taken) :
    Route paths s u table ρ (lv.map Prod.snd) tables tables := by
  obtain ⟨htaken, linked⟩ := descendFrom_absent hlt aligned owned absent ok distinct
  rw [htaken] at distinct
  refine ⟨linked, htaken, List.suffix_rfl, fun t ht => .inl ht, ?_, ?_⟩
  · intro t ht
    rcases List.mem_cons.mp ht with rfl | ht
    · exact aligned
    · exact distinct.aligned t (List.mem_append_right _ ht)
  · exact List.nodup_cons.mpr ⟨distinct.not_mem_new owned, (List.nodup_append.mp distinct.nodup).2.1⟩

/-- Through an entry that is present the route goes on from the table there. -/
theorem Route.of_present {lv : List (String × Nat)} {paths : Nat → Option (List Nat)}
    {i : Nat} {ρ new : List Nat} (hlt : ∀ l ∈ lv, l.2 < 512)
    (sound : Tables PML4 s.mem s.taken paths) (hpath : paths table = some ρ) (hlen : ρ.length < 3)
    (hi : i < 512) (present : presentField (entry s.mem table i) ≠ 0)
    (ok : descendFrom requestFrame lv (tableAddr (entry s.mem table i)) s = .ok (tables, u))
    (distinct : Distinct PML4 u.taken)
    (route : Route paths s u (tableAddr (entry s.mem table i)) (ρ ++ [i]) (lv.map Prod.snd) tables
      new) :
    Route paths s u table ρ (i :: lv.map Prod.snd) (tableAddr (entry s.mem table i) :: tables)
      new := by
  have hchild := sound.edge table ρ i hpath hlen hi present
  have hlen' : (ρ ++ [i]).length = ρ.length + 1 := List.length_append
  have below : ∀ t ∈ tableAddr (entry s.mem table i) :: tables,
      t ∈ new ∨ ∃ ρ', paths t = some ρ' ∧ ρ.length < ρ'.length := by
    intro t ht
    rcases List.mem_cons.mp ht with rfl | ht
    · exact .inr ⟨_, hchild, by omega⟩
    · refine (route.below t ht).imp_right ?_
      rintro ⟨ρ', hρ', hlonger⟩
      exact ⟨ρ', hρ', by omega⟩
  -- the table is on a shorter path than those below it, and no new one
  have other : table ∉ tableAddr (entry s.mem table i) :: tables := by
    intro hin
    rcases below table hin with hnew | ⟨ρ', hρ', hlonger⟩
    · rw [route.taken] at distinct
      exact distinct.not_mem_new (sound.owned table ρ hpath) hnew
    · obtain rfl := Option.some.inj (hpath.symm.trans hρ')
      exact Nat.lt_irrefl _ hlonger
  have aligned : ∀ t ∈ table :: tableAddr (entry s.mem table i) :: tables, t % PAGE_SZ = 0 := by
    intro t ht
    rcases List.mem_cons.mp ht with rfl | ht
    · exact sound.aligned t ρ hpath
    · exact route.aligned t ht
  exact ⟨.of_descend hlt ok hi present (Nat.mod_mod _ _).symm aligned other route.linked,
    route.taken, route.last.trans (List.suffix_cons _ _), below, aligned,
    List.nodup_cons.mpr ⟨other, route.nodup⟩⟩

/-- **A call links the tables that it goes through**, from a sound tree, wherever the new ones
are. -/
theorem descendFrom_route {lv : List (String × Nat)} {paths : Nat → Option (List Nat)}
    {ρ : List Nat} (hlt : ∀ l ∈ lv, l.2 < 512) (sound : Tables PML4 s.mem s.taken paths)
    (hpath : paths table = some ρ) (hlen : ρ.length + lv.length ≤ 3)
    (ok : descendFrom requestFrame lv table s = .ok (tables, u)) (distinct : Distinct PML4 u.taken) :
    ∃ new, Route paths s u table ρ (lv.map Prod.snd) tables new := by
  induction lv generalizing table tables ρ with
  | nil =>
    exact ⟨_, route_absent hlt (sound.aligned table ρ hpath) (sound.owned table ρ hpath)
      (fun l hl => absurd hl (Option.not_mem_none l)) ok distinct⟩
  | cons l rest ih =>
    have hi := hlt l List.mem_cons_self
    have hlt' : ∀ l ∈ rest, l.2 < 512 := fun l hl => hlt l (List.mem_cons_of_mem _ hl)
    rw [List.length_cons] at hlen
    by_cases absent : presentField (entry s.mem table l.2) = 0
    · exact ⟨tables, route_absent hlt (sound.aligned table ρ hpath) (sound.owned table ρ hpath)
        (fun l' hl' => Option.some.inj hl' ▸ absent) ok distinct⟩
    · obtain ⟨child, s', tables', hlevel, hrest, rfl⟩ := descendFrom_cons ok
      rcases getOrCreate_ok hlevel with ⟨-, rfl, rfl⟩ | ⟨absent', -⟩
      · have hchild := sound.edge table ρ l.2 hpath (by omega) hi absent
        have hlen' : (ρ ++ [l.2]).length = ρ.length + 1 := List.length_append
        obtain ⟨new, route⟩ := ih hlt' hchild (by omega) hrest
        exact ⟨new, .of_present hlt' sound hpath (by omega) hi absent hrest distinct route⟩
      · exact absurd absent' absent

/-- The same after the page's own entry is set: that entry is in the last table. -/
theorem allocatePage_route {vaddr paddr : Nat} {paths : Nat → Option (List Nat)} {s' : State σ}
    (sound : Tables PML4 s.mem s.taken paths)
    (hdescend : descendFrom requestFrame (levels vaddr) PML4 s = .ok (tables, s'))
    (ok : allocatePage requestFrame PML4 vaddr paddr s = .ok u) (distinct : Distinct PML4 u.taken) :
    ∃ new, Route paths s u PML4 [] (upper vaddr) tables new := by
  obtain ⟨tables', s'', hdescend', hmem, htaken⟩ := allocatePage_descends ok
  obtain ⟨rfl, rfl⟩ := Prod.mk.inj (Except.ok.inj (hdescend.symm.trans hdescend'))
  have hlt : ∀ l ∈ levels vaddr, l.2 < 512 := fun l => levels_lt
  obtain ⟨new, route⟩ := descendFrom_route hlt sound sound.root (Nat.le_refl 3) hdescend
    (htaken ▸ distinct)
  refine ⟨new, route.linked.congr (fun i hi => upper_lt hi) ?_, htaken.trans route.taken, route.last,
    route.below, route.aligned, route.nodup⟩
  intro y hy j hj
  have hsplit := List.dropLast_concat_getLast (List.cons_ne_nil PML4 tables)
  rw [List.getLast_eq_getLastD] at hsplit
  have hnodup := route.nodup
  rw [← hsplit] at hnodup
  have hne : y ≠ tables.getLastD PML4 :=
    (List.nodup_append.mp hnodup).2.2 y hy _ (List.mem_singleton_self _)
  have hya := route.aligned y (List.dropLast_subset _ hy)
  have hla := route.aligned _ List.getLastD_mem_cons
  have hpt := pt_lt vaddr
  rw [hmem]
  refine Mem.read64_congr fun a h1 h2 => setEntry_of_outside ?_
  simp only [entryAddr, PAGE_SZ, FRAME_SZ] at h1 h2 hya hla ⊢
  omega

end Descend

/-! ## Runs -/

section Runs

variable {σ : Type} (requestFrame : σ → Except Fault (Nat × σ)) (PML4 : Nat)

/-- `allocate_page` for `vaddr` puts a new table at `f` into an entry of the PML4 (`k = 0`), of a
PDPT or of a PD. -/
def Installs (s : State σ) (vaddr k f : Nat) : Prop :=
  ∃ tables u, descendFrom requestFrame (levels vaddr) PML4 s = .ok (tables, u) ∧
    tables[k]? = some f ∧ f ∈ u.taken.drop s.taken.length

/-- Both functions come to the table at `f` for `vaddr`, after `k + 1` levels: `is_page_allocated`
reads on there, and `allocate_page` gets there with nothing changed. -/
structure Found (s : State σ) (vaddr k f : Nat) : Prop where
  walks : tableAt s.mem PML4 ((path vaddr).take (k + 1)) = some f
  answers : isPageAllocated PML4 s.mem vaddr =
    (lookupFrom s.mem f ((path vaddr).drop (k + 1))).isSome
  descends : ∃ tables, descendFrom requestFrame ((levels vaddr).take (k + 1)) PML4 s =
    .ok (tables, s) ∧ tables.getLastD PML4 = f

variable {requestFrame PML4} {s t u : State σ} {calls : List (Nat × Nat)}

theorem Installs.lt_three {vaddr k f : Nat} (installs : Installs requestFrame PML4 s vaddr k f) :
    k < 3 := by
  obtain ⟨tables, u, ok, hk, -⟩ := installs
  have hlt := (List.getElem?_eq_some_iff.mp hk).1
  rwa [descendFrom_length ok] at hlt

theorem found_of_tableAt {vaddr k f : Nat} (hk : k < 3)
    (hat : tableAt s.mem PML4 ((path vaddr).take (k + 1)) = some f) :
    Found requestFrame PML4 s vaddr k f := by
  have hlevels : ((levels vaddr).take (k + 1)).map Prod.snd = (path vaddr).take (k + 1) := by
    rw [List.map_take, levels_map_snd, take_upper hk]
  refine ⟨hat, ?_, descendFrom_of_tableAt (by rwa [hlevels])⟩
  rw [isPageAllocated_tableAt PML4 s.mem vaddr k hk, hat]
  rfl

/-- Where one call with low frames has put a table, every walk goes on finding it. -/
theorem tableAt_of_run {is : List Nat} {f : Nat} (hlen : is.length ≤ 3) (hlt : ∀ i ∈ is, i < 512)
    (run : Run (step requestFrame PML4) (fun _ _ => True) s calls t) (fresh : Fresh PML4 t.taken)
    (sound : ∃ paths, Tables PML4 s.mem s.taken paths) (hat : tableAt s.mem PML4 is = some f) :
    (∃ paths, Tables PML4 t.mem t.taken paths) ∧ tableAt t.mem PML4 is = some f := by
  refine run.invariant_within (G := fun s => Fresh PML4 s.taken)
    (P := fun s => (∃ paths, Tables PML4 s.mem s.taken paths) ∧ tableAt s.mem PML4 is = some f)
    ?_ ?_ fresh ⟨sound, hat⟩
  · intro s call u ok fresh
    obtain ⟨more, hmore⟩ := allocatePage_taken ok
    exact .of_append (hmore ▸ fresh)
  · rintro s call u ⟨⟨paths, sound⟩, hat⟩ - ok fresh
    obtain ⟨paths', grows⟩ := allocatePage_grows sound ok fresh
    exact ⟨⟨paths', grows.tables⟩, grows.tableAt sound sound.root (by simpa using hlen) hlt hat⟩

/-- Below the PML4 a call goes through frames that were taken. -/
theorem Route.mem_taken {paths : Nat → Option (List Nat)} {is tables new : List Nat} {f : Nat}
    (route : Route paths s u PML4 [] is tables new) (sound : Tables PML4 s.mem s.taken paths)
    (hf : f ∈ tables) : f ∈ new ∨ f ∈ s.taken := by
  refine (route.below f hf).imp_right ?_
  rintro ⟨ρ, hρ, hlonger⟩
  rcases sound.owned f ρ hρ with rfl | hmem
  · obtain rfl := Option.some.inj (sound.root.symm.trans hρ)
    exact absurd hlonger (Nat.lt_irrefl 0)
  · exact hmem

/-- A call whose frames are low leaves a walk to each table that it installs. -/
theorem Installs.tableAt {vaddr paddr k f : Nat} {paths : Nat → Option (List Nat)}
    (installs : Installs requestFrame PML4 s vaddr k f) (sound : Tables PML4 s.mem s.taken paths)
    (ok : allocatePage requestFrame PML4 vaddr paddr s = .ok u) (fresh : Fresh PML4 u.taken) :
    tableAt u.mem PML4 ((path vaddr).take (k + 1)) = some f := by
  have hk := installs.lt_three
  obtain ⟨tables, s', hdescend, hf, -⟩ := installs
  obtain ⟨new, route⟩ := allocatePage_route sound hdescend ok
    ⟨fresh.nodup, fresh.aligned, fresh.root⟩
  have hlow : ∀ c ∈ tables, c < 2 ^ 32 := by
    intro c hc
    refine fresh.low c ?_
    rw [route.taken]
    exact List.mem_append.mpr (route.mem_taken sound hc).symm
  have hwalk := tableAt_of_linkedDown route.linked (fun c hc => hlow c (List.mem_of_mem_take hc))
    (List.getElem?_eq_some_iff.mp hf).1
  rw [take_upper hk, hf] at hwalk
  exact hwalk.trans (congrArg some (Nat.mod_eq_of_lt (hlow f (List.mem_of_getElem? hf))))

/-- The first call that takes a frame from 4 GiB up installs a table that no walk comes to. -/
theorem exists_lost {vaddr paddr : Nat} {paths : Nat → Option (List Nat)}
    (sound : Tables PML4 s.mem s.taken paths)
    (ok : allocatePage requestFrame PML4 vaddr paddr s = .ok u) (distinct : Distinct PML4 u.taken)
    (low : ∀ f ∈ s.taken, f < 2 ^ 32) (high : ¬ ∀ f ∈ u.taken, f < 2 ^ 32) :
    ∃ k f, Installs requestFrame PML4 s vaddr k f ∧
      tableAt u.mem PML4 ((path vaddr).take (k + 1)) ≠ some f := by
  obtain ⟨tables, s', hdescend, -, htaken⟩ := allocatePage_descends ok
  obtain ⟨new, route⟩ := allocatePage_route sound hdescend ok distinct
  have hnew : ∀ f ∈ tables, 2 ^ 32 ≤ f → f ∈ new := by
    intro f hf hhigh
    rcases route.mem_taken sound hf with h | h
    · exact h
    · exact absurd (low f h) (Nat.not_lt.mpr hhigh)
  have hexists : ∃ f ∈ tables, 2 ^ 32 ≤ f := by
    by_contra hnone
    refine high fun f hf => ?_
    rw [route.taken] at hf
    rcases List.mem_append.mp hf with hold | hnew
    · exact low f hold
    · exact Nat.lt_of_not_le fun hle => hnone ⟨f, route.last.subset hnew, hle⟩
  -- the first of the tables on the way that is high
  obtain ⟨f, hfind⟩ := Option.isSome_iff_exists.mp
    (List.find?_isSome (p := fun c => decide (2 ^ 32 ≤ c)).mpr
      (hexists.imp fun _ h => h.imp_right decide_eq_true))
  obtain ⟨hhigh, before, after, rfl, hbefore⟩ := List.find?_eq_some_iff_append.mp hfind
  have hhigh' : 2 ^ 32 ≤ f := of_decide_eq_true hhigh
  have hget : (before ++ f :: after)[before.length]? = some f := by simp
  have installs : Installs requestFrame PML4 s vaddr before.length f := by
    refine ⟨before ++ f :: after, s', hdescend, hget, ?_⟩
    rw [← htaken, route.taken, List.drop_left]
    exact hnew f (List.mem_append_right _ List.mem_cons_self) hhigh'
  refine ⟨before.length, f, installs, ?_⟩
  have hlow : ∀ c ∈ (before ++ f :: after).take before.length, c < 2 ^ 32 := by
    intro c hc
    rw [List.take_left] at hc
    refine Nat.lt_of_not_le fun hle => absurd (hbefore c hc) ?_
    rw [decide_eq_true hle]
    decide
  have hwalk := tableAt_of_linkedDown route.linked hlow (List.getElem?_eq_some_iff.mp hget).1
  rw [take_upper installs.lt_three, hget] at hwalk
  rw [hwalk]
  intro heq
  have hmod : f % 2 ^ 32 = f := Option.some.inj heq
  have hlt : f % 2 ^ 32 < 2 ^ 32 := Nat.mod_lt f (by decide)
  omega

/-- **The tables are found again exactly when they are below 4 GiB.** From a PML4 of zeroes, over
any completed calls with distinct pages as table frames: every table that a call installs is found
by both functions, after any of the later calls and for every address with the same indices down to
it, if and only if all the frames taken for tables are below 2^32. -/
theorem tables_found_iff {mem : Mem} {pmem : σ} (haligned : PML4 % PAGE_SZ = 0)
    (zero : ∀ x, PML4 ≤ x → x < PML4 + PAGE_SZ → mem x = 0)
    (run : Run (step requestFrame PML4) (fun _ _ => True) ⟨mem, pmem, []⟩ calls t)
    (distinct : Distinct PML4 t.taken) :
    (∀ pre vaddr paddr post s u, calls = pre ++ (vaddr, paddr) :: post →
        Run (step requestFrame PML4) (fun _ _ => True) ⟨mem, pmem, []⟩ pre s →
        step requestFrame PML4 s (vaddr, paddr) = .ok u →
        ∀ k f, Installs requestFrame PML4 s vaddr k f →
          ∀ mid w, mid <+: post → Run (step requestFrame PML4) (fun _ _ => True) u mid w →
            ∀ x, (path x).take (k + 1) = (path vaddr).take (k + 1) →
              Found requestFrame PML4 w x k f) ↔
      ∀ f ∈ t.taken, f < 2 ^ 32 := by
  obtain ⟨tables, -⟩ := tables_zero haligned zero
  constructor
  · intro all
    by_contra high
    obtain ⟨pre, ⟨vaddr, paddr⟩, post, s, u, hsplit, before, ok, after, low, high'⟩ :=
      run.exists_loss (P := fun s => ∀ f ∈ s.taken, f < 2 ^ 32)
        (fun f hf => absurd hf List.not_mem_nil) high
    obtain ⟨_, hafter⟩ := taken_of_run after
    obtain ⟨_, hstep⟩ := allocatePage_taken ok
    have distinct' : Distinct PML4 u.taken := .of_append (hafter ▸ distinct)
    have fresh : Fresh PML4 s.taken := (Distinct.of_append (hstep ▸ distinct')).fresh low
    obtain ⟨⟨paths, sound⟩, -⟩ := lookup_of_run before fresh tables
    obtain ⟨k, f, installs, hlost⟩ := exists_lost sound ok distinct' low high'
    exact hlost (all pre vaddr paddr post s u hsplit before ok k f installs [] u
      List.nil_prefix (.nil u) vaddr rfl).walks
  · rintro low pre vaddr paddr post s u rfl before ok k f installs mid w ⟨rest, rfl⟩ middle x hx
    have fresh := distinct.fresh low
    rw [← List.cons_append, ← List.append_assoc] at run
    obtain ⟨w', first, last⟩ := run.append_inv
    obtain rfl := first.unique (before.append (.cons trivial ok middle))
    obtain ⟨_, hlast⟩ := taken_of_run last
    have fresh_w : Fresh PML4 w'.taken := .of_append (hlast ▸ fresh)
    obtain ⟨_, hmiddle⟩ := taken_of_run middle
    have fresh_u : Fresh PML4 u.taken := .of_append (hmiddle ▸ fresh_w)
    obtain ⟨_, hstep⟩ := allocatePage_taken ok
    obtain ⟨⟨paths, sound⟩, -⟩ := lookup_of_run before (.of_append (hstep ▸ fresh_u)) tables
    obtain ⟨paths', grows⟩ := allocatePage_grows sound ok fresh_u
    have hk := installs.lt_three
    have hat := installs.tableAt sound ok fresh_u
    rw [← hx] at hat
    have hlen : ((path x).take (k + 1)).length ≤ 3 := by
      rw [List.length_take]
      omega
    obtain ⟨-, hat'⟩ := tableAt_of_run hlen (fun i hi => path_lt (List.mem_of_mem_take hi)) middle
      fresh_w ⟨paths', grows.tables⟩ hat
    exact found_of_tableAt hk hat'

/-- What a call installs, evaluated. -/
theorem installs_of_eval {vaddr k f : Nat} {new : List Nat}
    (h : (descendFrom requestFrame (levels vaddr) PML4 s).toOption.map
      (fun r => (r.1[k]?, r.2.taken.drop s.taken.length)) = some (some f, new)) (hf : f ∈ new) :
    Installs requestFrame PML4 s vaddr k f := by
  obtain ⟨⟨tables, u⟩, ok, heq⟩ := Except.ok_of_toOption_map h
  obtain ⟨hget, hnew⟩ := Prod.mk.inj heq
  exact ⟨tables, u, ok, hget, hnew ▸ hf⟩

/-- The page directory that a first call installs is found again after two more calls, from the
page that shares it and has a page table of its own. -/
theorem shared_table_found : ∃ s t : State (List Nat),
    step tape 0x1000 zeroed (0x99999999999, 0x7000) = .ok s ∧
      Run (step tape 0x1000) (fun _ _ => True) s threeCalls.tail t ∧
      Found tape 0x1000 t 0x99999a00123 1 0x3000 := by
  obtain ⟨s, t, ok, rest, htaken⟩ := three_calls
  have installs : Installs tape 0x1000 zeroed 0x99999999999 1 0x3000 := by
    refine @installs_of_eval _ _ _ _ _ _ _ [0x2000, 0x3000, 0x4000] ?_ (by decide)
    simp only [levels, descendFrom, getOrCreate, memset_eq]
    decide +kernel
  have rest' : Run (step tape 0x1000) (fun _ _ => True) s threeCalls.tail t :=
    rest.mono fun _ _ _ => trivial
  have run : Run (step tape 0x1000) (fun _ _ => True) zeroed threeCalls t := .cons trivial ok rest'
  have distinct : Distinct 0x1000 t.taken := by
    rw [htaken]
    exact ⟨by decide, by decide, by decide⟩
  have found := (tables_found_iff (by decide) (fun _ _ _ => rfl) run distinct).mpr
    (by rw [htaken]; decide)
  exact ⟨s, t, ok, rest', found [] _ _ threeCalls.tail _ s rfl (.nil _) ok 1 0x3000 installs
    threeCalls.tail t List.prefix_rfl rest' 0x99999a00123 (by decide)⟩

/-- A PDPT at 4 GiB and 8 KiB is looked for at 8 KiB, and the page that was just allocated is not
found. -/
theorem high_table_not_found : ∃ t : State (List Nat),
    step tape 0x1000 ⟨fun _ => 0, [0x100002000, 0x3000, 0x4000], []⟩ (0x99999999999, 0x7000) =
        .ok t ∧ Distinct 0x1000 t.taken ∧
      Installs tape 0x1000 ⟨fun _ => 0, [0x100002000, 0x3000, 0x4000], []⟩ 0x99999999999 0
        0x100002000 ∧ 0x100002000 < 2 ^ 44 ∧
      ¬ Found tape 0x1000 t 0x99999999999 0 0x100002000 ∧
      tableAt t.mem 0x1000 ((path 0x99999999999).take 1) = some 0x2000 ∧
      isPageAllocated 0x1000 t.mem 0x99999999999 = false := by
  obtain ⟨t, ok, heq⟩ : ∃ t, step tape 0x1000 ⟨fun _ => 0, [0x100002000, 0x3000, 0x4000], []⟩
      (0x99999999999, 0x7000) = .ok t ∧
        (t.taken, tableAt t.mem 0x1000 ((path 0x99999999999).take 1),
          isPageAllocated 0x1000 t.mem 0x99999999999) =
        ([0x100002000, 0x3000, 0x4000], some 0x2000, false) := by
    apply Except.ok_of_toOption_map
    simp only [step, allocatePage, getOrCreate, memset_eq]
    decide +kernel
  obtain ⟨htaken, hwalk, hanswer⟩ : _ ∧ _ ∧ _ := by simpa only [Prod.mk.injEq] using heq
  refine ⟨t, ok, ?_, ?_, by decide, ?_, hwalk, hanswer⟩
  · rw [htaken]
    exact ⟨by decide, by decide, by decide⟩
  · refine @installs_of_eval _ _ _ _ _ _ _ [0x100002000, 0x3000, 0x4000] ?_ (by decide)
    simp only [levels, descendFrom, getOrCreate, memset_eq]
    decide +kernel
  · intro found
    exact absurd (hwalk.symm.trans found.walks) (by decide)

end Runs

end PrintOS.Paging
