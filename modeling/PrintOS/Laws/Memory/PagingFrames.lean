import Mathlib.Data.Finset.Card
import Mathlib.Data.Finset.Union
import PrintOS.Laws.Memory.PagingTables

/-!
# How many frames the tables take

A table is made for each prefix of the three upper indices of an address that was mapped, once. So
the tables that there are, by the paths that lead to them, are a set that only grows (`Made`), and a
call adds the prefixes of its own address to it (`allocatePage_made`).

The number of frames taken in a run is then a matter of counting: prefixes of one, two and three
indices are bits 39 to 47, 30 to 47 and 21 to 47 of an address. A call that is repeated finds its
tables, and its page table entry has what it would set (`frames_taken_eq`).
-/

namespace PrintOS.Paging

open ByteMemory (Mem)

/-! ## Walks -/

theorem tableAt_append (m : Mem) (t : Nat) (is js : List Nat) :
    tableAt m t (is ++ js) = (tableAt m t is).bind fun u => tableAt m u js := by
  induction is generalizing t with
  | nil => rfl
  | cons i is ih =>
    rw [List.cons_append, tableAt, tableAt, ih]
    split
    · rfl
    · rfl

variable {PML4 : Nat} {m m' : Mem} {taken : List Nat} {paths : Nat → Option (List Nat)}

/-- A walk that does not go through the entry that has changed is as it was. -/
theorem Tables.tableAt_only (tables : Tables PML4 m taken paths) {t i : Nat} {π : List Nat}
    (ht : paths t = some π) (only : OnlyEntry paths m m' t i) {x : Nat} {ρ js : List Nat}
    (hx : paths x = some ρ) (hlen : ρ.length + js.length ≤ 3) (hlt : ∀ j ∈ js, j < 512)
    (other : ¬ π ++ [i] <+: ρ ++ js) : tableAt m' x js = tableAt m x js := by
  induction js generalizing x ρ with
  | nil => rfl
  | cons j rest ih =>
    rw [List.length_cons] at hlen
    have hj := hlt j List.mem_cons_self
    have hentry : entry m' x j = entry m x j := by
      rcases only x ρ j hx hj with ⟨rfl, rfl⟩ | h
      · obtain rfl := Option.some.inj (ht.symm.trans hx)
        exact absurd ⟨rest, by rw [List.append_assoc, List.singleton_append]⟩ other
      · exact h
    rw [tableAt, tableAt, hentry]
    split
    · rfl
    · next hpresent =>
      have hlen' : (ρ ++ [j]).length = ρ.length + 1 := List.length_append
      refine ih (tables.edge x ρ j hx (by omega) hj hpresent) (by omega)
        (fun k hk => hlt k (List.mem_cons_of_mem _ hk)) ?_
      rwa [List.append_assoc, List.singleton_append]

/-! ## The tables that there are -/

section Made

variable {σ : Type} {requestFrame : σ → Except Fault (Nat × σ)} {s s' u t : State σ}
  {made : Finset (List Nat)} {table : Nat} {tables : List Nat} {calls : List (Nat × Nat)}

/-- The tables below the PML4, by their paths: as many as frames were taken. -/
structure Made (PML4 : Nat) (paths : Nat → Option (List Nat)) (s : State σ)
    (made : Finset (List Nat)) : Prop where
  sound : Tables PML4 s.mem s.taken paths
  walks : ∀ js, js ≠ [] → js.length ≤ 3 → (∀ j ∈ js, j < 512) →
    ((tableAt s.mem PML4 js).isSome ↔ js ∈ made)
  count : s.taken.length = made.card

theorem forall_mem_concat {ρ : List Nat} {i : Nat} (hρ : ∀ j ∈ ρ, j < 512) (hi : i < 512) :
    ∀ j ∈ ρ ++ [i], j < 512 := by
  intro j hj
  rcases List.mem_append.mp hj with h | h
  · exact hρ j h
  · rw [List.mem_singleton.mp h]
    exact hi

/-- A new table below the entry `(table, i)`: there is one path more. -/
theorem Made.insert_created {i child : Nat} {ρ : List Nat} {text : String}
    {paths' : Nat → Option (List Nat)} (all : Made PML4 paths s made)
    (hpath : paths table = some ρ) (hat : tableAt s.mem PML4 ρ = some table) (hρ : ρ.length < 3)
    (hρlt : ∀ j ∈ ρ, j < 512) (hi : i < 512) (absent : presentField (entry s.mem table i) = 0)
    (ok : getOrCreate requestFrame text (entryAddr table i) s = .ok (child, s'))
    (fresh : Fresh PML4 s'.taken) (level : Descended PML4 paths s s' table i child ρ paths')
    (hafter : tableAt s'.mem PML4 (ρ ++ [i]) = some child) :
    Made PML4 paths' s' (insert (ρ ++ [i]) made) := by
  have hlen : (ρ ++ [i]).length = ρ.length + 1 := List.length_append
  have hlt := forall_mem_concat hρlt hi
  obtain ⟨htaken, -, -, empty⟩ := getOrCreate_links hi (all.sound.aligned table ρ hpath)
    (all.sound.owned table ρ hpath) absent ok ⟨fresh.nodup, fresh.aligned, fresh.root⟩
  have hbefore : tableAt s.mem PML4 (ρ ++ [i]) = none := by
    rw [tableAt_append, hat]
    exact if_pos absent
  have hnot : ρ ++ [i] ∉ made := by
    intro hmem
    have hsome := (all.walks (ρ ++ [i]) (by simp) (by omega) hlt).mpr hmem
    rw [hbefore] at hsome
    cases hsome
  refine ⟨level.tables, ?_, ?_⟩
  · intro js hne hjs hjlt
    rw [Finset.mem_insert, ← all.walks js hne hjs hjlt]
    by_cases hprefix : ρ ++ [i] <+: js
    · obtain ⟨rest, rfl⟩ := hprefix
      cases rest with
      | nil =>
        rw [List.append_nil, hafter]
        exact iff_of_true rfl (.inl rfl)
      | cons j rest =>
        -- the new table has no entry
        have hj : j < 512 := hjlt j (List.mem_append_right _ List.mem_cons_self)
        have hnone : tableAt s'.mem PML4 (ρ ++ [i] ++ j :: rest) = none := by
          rw [tableAt_append, hafter]
          exact if_pos (empty j hj)
        have hnone' : tableAt s.mem PML4 (ρ ++ [i] ++ j :: rest) = none := by
          rw [tableAt_append, hbefore]
          rfl
        rw [hnone, hnone']
        refine iff_of_false Bool.false_ne_true ?_
        rintro (h | h)
        · have hlong := congrArg List.length h
          rw [List.length_append, List.length_cons] at hlong
          omega
        · cases h
    · rw [all.sound.tableAt_only hpath level.only all.sound.root (by simpa using hjs) hjlt hprefix]
      have hother : js ≠ ρ ++ [i] := fun h => hprefix (h ▸ List.prefix_rfl)
      exact ⟨.inr, fun h => h.resolve_left hother⟩
  · rw [htaken, List.length_append, all.count, Finset.card_insert_of_notMem hnot]
    rfl

/-- What a level leaves: its path is among those that there are. -/
theorem getOrCreate_made {text : String} {i child : Nat} {ρ : List Nat}
    (all : Made PML4 paths s made) (hpath : paths table = some ρ)
    (hat : tableAt s.mem PML4 ρ = some table) (hρ : ρ.length < 3) (hρlt : ∀ j ∈ ρ, j < 512)
    (hi : i < 512) (ok : getOrCreate requestFrame text (entryAddr table i) s = .ok (child, s'))
    (fresh : Fresh PML4 s'.taken) :
    ∃ paths', Made PML4 paths' s' (insert (ρ ++ [i]) made) ∧ paths' child = some (ρ ++ [i]) ∧
      tableAt s'.mem PML4 (ρ ++ [i]) = some child := by
  have hlen : (ρ ++ [i]).length ≤ 3 := by
    rw [List.length_append]
    exact hρ
  have hlt := forall_mem_concat hρlt hi
  obtain ⟨paths', level⟩ := getOrCreate_descends all.sound hpath hρ hi ok fresh
  have grows := getOrCreate_grows level ok
  have hρ' : tableAt s'.mem PML4 ρ = some table :=
    grows.tableAt all.sound all.sound.root (by simpa using Nat.le_of_lt hρ) hρlt hat
  have hafter : tableAt s'.mem PML4 (ρ ++ [i]) = some child := by
    rw [tableAt_append, hρ']
    show (if presentField (entry s'.mem table i) = 0 then none else _) = _
    rw [if_neg level.present, level.points]
    rfl
  refine ⟨paths', ?_, level.child_path, hafter⟩
  by_cases absent : presentField (entry s.mem table i) = 0
  · exact all.insert_created hpath hat hρ hρlt hi absent ok fresh level hafter
  · rcases getOrCreate_ok ok with ⟨-, -, rfl⟩ | ⟨absent', -⟩
    · have hmem : ρ ++ [i] ∈ made :=
        (all.walks _ (List.append_ne_nil_of_right_ne_nil ρ (List.cons_ne_nil i [])) hlen hlt).mp
          (by rw [hafter]; rfl)
      rw [Finset.insert_eq_of_mem hmem]
      exact ⟨level.tables, all.walks, all.count⟩
    · exact absurd absent' absent

/-- The paths of the tables from the one at `ρ` on. -/
def pathsFrom (ρ : List Nat) : List Nat → Finset (List Nat)
  | [] => ∅
  | i :: is => insert (ρ ++ [i]) (pathsFrom (ρ ++ [i]) is)

theorem descendFrom_made {lv : List (String × Nat)} {ρ : List Nat} (hlt : ∀ l ∈ lv, l.2 < 512)
    (all : Made PML4 paths s made) (hpath : paths table = some ρ)
    (hat : tableAt s.mem PML4 ρ = some table) (hρlt : ∀ j ∈ ρ, j < 512)
    (hlen : ρ.length + lv.length ≤ 3)
    (ok : descendFrom requestFrame lv table s = .ok (tables, u)) (fresh : Fresh PML4 u.taken) :
    ∃ paths', Made PML4 paths' u (pathsFrom ρ (lv.map Prod.snd) ∪ made) ∧
      paths' (tables.getLastD table) = some (ρ ++ lv.map Prod.snd) := by
  induction lv generalizing table tables s ρ paths made with
  | nil =>
    cases ok
    refine ⟨paths, ?_, hpath.trans (congrArg some (List.append_nil ρ).symm)⟩
    rw [List.map_nil, pathsFrom, Finset.empty_union]
    exact all
  | cons l rest ih =>
    obtain ⟨child, s', tables', hlevel, hrest, rfl⟩ := descendFrom_cons ok
    rw [List.length_cons] at hlen
    have hi := hlt l List.mem_cons_self
    obtain ⟨more, hmore⟩ := descendFrom_taken hrest
    obtain ⟨paths₁, all₁, hchild, hat₁⟩ := getOrCreate_made all hpath hat (by omega) hρlt hi hlevel
      (.of_append (hmore ▸ fresh))
    have hlen' : (ρ ++ [l.2]).length = ρ.length + 1 := List.length_append
    obtain ⟨paths₂, all₂, hlast⟩ := ih (fun l hl => hlt l (List.mem_cons_of_mem _ hl)) all₁ hchild hat₁
      (forall_mem_concat hρlt hi) (by omega) hrest
    refine ⟨paths₂, ?_, ?_⟩
    · rw [Finset.union_insert, ← Finset.insert_union] at all₂
      exact all₂
    · rw [List.getLastD_cons, hlast, List.append_assoc, List.singleton_append]
      rfl

/-- **A call makes the tables of its address that there are not yet**, one frame for each. -/
theorem allocatePage_made {vaddr paddr : Nat} (all : Made PML4 paths s made)
    (ok : allocatePage requestFrame PML4 vaddr paddr s = .ok u) (fresh : Fresh PML4 u.taken) :
    ∃ paths', Made PML4 paths' u (pathsFrom [] (upper vaddr) ∪ made) := by
  obtain ⟨tables, s', hdescend, hmem, htaken⟩ := allocatePage_descends ok
  obtain ⟨paths', all', hlast⟩ := descendFrom_made (fun l => levels_lt) all all.sound.root rfl
    (fun j hj => absurd hj List.not_mem_nil) (Nat.le_refl 3) hdescend (htaken ▸ fresh)
  have only : OnlyEntry paths' s'.mem u.mem (tables.getLastD PML4) (PageIndexer.new vaddr).pt := by
    rw [hmem]
    exact all'.sound.onlyEntry_setEntry hlast (pt_lt vaddr)
  refine ⟨paths', ?_, ?_, ?_⟩
  · rw [htaken]
    exact all'.sound.of_page hlast rfl only
  · intro js hne hjs hlt
    rw [all'.sound.tableAt_only hlast only all'.sound.root (by simpa using hjs) hlt]
    · exact all'.walks js hne hjs hlt
    · -- a page table entry is at the end of four indices
      intro hprefix
      have hlong : 4 ≤ js.length := hprefix.length_le
      omega
  · rw [htaken]
    exact all'.count

theorem made_of_run (run : Run (step requestFrame PML4) (fun _ _ => True) s calls t)
    (fresh : Fresh PML4 t.taken) (all : Made PML4 paths s made) :
    ∃ paths' made', Made PML4 paths' t made' ∧
      ∀ js, js ∈ made' ↔ js ∈ made ∨ ∃ c ∈ calls, js ∈ pathsFrom [] (upper c.1) := by
  induction run generalizing paths made with
  | nil s =>
    refine ⟨paths, made, all, fun js => ⟨.inl, ?_⟩⟩
    rintro (h | ⟨c, hc, -⟩)
    · exact h
    · exact absurd hc List.not_mem_nil
  | @cons s s₁ t call calls _ ok rest ih =>
    obtain ⟨_, htaken⟩ := taken_of_run rest
    obtain ⟨paths₁, all₁⟩ := allocatePage_made all ok (.of_append (htaken ▸ fresh))
    obtain ⟨paths₂, made', all₂, hmem⟩ := ih fresh all₁
    refine ⟨paths₂, made', all₂, fun js => ?_⟩
    rw [hmem js, Finset.mem_union, List.exists_mem_cons_iff, or_assoc, or_left_comm]

/-! ## Counting -/

/-- The paths of one, two and three indices, from the bits of an address that they are. -/
def onePath (n : Nat) : List Nat := [n]

def twoPath (n : Nat) : List Nat := [n / 512, n % 512]

def threePath (n : Nat) : List Nat := [n / 512 / 512, n / 512 % 512, n % 512]

theorem mem_pathsFrom {v : Nat} {js : List Nat} : js ∈ pathsFrom [] (upper v) ↔
    js = onePath (v / 2 ^ 39 % 2 ^ 9) ∨ js = twoPath (v / 2 ^ 30 % 2 ^ 18) ∨
      js = threePath (v / 2 ^ 21 % 2 ^ 27) := by
  have htwo : twoPath (v / 2 ^ 30 % 2 ^ 18) = [v / 2 ^ 39 % 512, v / 2 ^ 30 % 512] := by
    simp only [twoPath, List.cons.injEq, and_true]
    omega
  have hthree : threePath (v / 2 ^ 21 % 2 ^ 27) =
      [v / 2 ^ 39 % 512, v / 2 ^ 30 % 512, v / 2 ^ 21 % 512] := by
    simp only [threePath, List.cons.injEq, and_true]
    omega
  have hupper : upper v = [v / 2 ^ 39 % 512, v / 2 ^ 30 % 512, v / 2 ^ 21 % 512] := by
    rw [upper, path, pageIndexer_eq]
    rfl
  rw [htwo, hthree, hupper]
  simp only [pathsFrom, List.nil_append, List.cons_append, Finset.mem_insert, Finset.notMem_empty,
    or_false]
  rfl

theorem disjoint_of_length {A B : Finset Nat} {f g : Nat → List Nat} {k l : Nat}
    (hf : ∀ a, (f a).length = k) (hg : ∀ b, (g b).length = l) (hne : k ≠ l) :
    Disjoint (A.image f) (B.image g) := by
  refine Finset.disjoint_left.mpr fun js hA hB => ?_
  obtain ⟨a, -, rfl⟩ := Finset.mem_image.mp hA
  obtain ⟨b, -, hb⟩ := Finset.mem_image.mp hB
  have hlength := congrArg List.length hb
  rw [hf, hg] at hlength
  exact hne hlength.symm

/-- How often each number of indices occurs: there are as many paths as values of the bits. -/
theorem card_paths (h : ∀ js, js ∈ made ↔ ∃ c ∈ calls, js ∈ pathsFrom [] (upper c.1)) :
    made.card = (calls.map fun c => c.1 / 2 ^ 39 % 2 ^ 9).toFinset.card +
      (calls.map fun c => c.1 / 2 ^ 30 % 2 ^ 18).toFinset.card +
      (calls.map fun c => c.1 / 2 ^ 21 % 2 ^ 27).toFinset.card := by
  have hone : Function.Injective onePath := fun a b hab => (List.cons.inj hab).1
  have htwo : Function.Injective twoPath := by
    intro a b hab
    simp only [twoPath, List.cons.injEq, and_true] at hab
    omega
  have hthree : Function.Injective threePath := by
    intro a b hab
    simp only [threePath, List.cons.injEq, and_true] at hab
    omega
  have hmade : made = (calls.map fun c => c.1 / 2 ^ 39 % 2 ^ 9).toFinset.image onePath ∪
      (calls.map fun c => c.1 / 2 ^ 30 % 2 ^ 18).toFinset.image twoPath ∪
      (calls.map fun c => c.1 / 2 ^ 21 % 2 ^ 27).toFinset.image threePath := by
    ext js
    simp only [h js, mem_pathsFrom, Finset.mem_union, Finset.mem_image, List.mem_toFinset,
      List.mem_map, exists_exists_and_eq_and]
    constructor
    · rintro ⟨c, hc, rfl | rfl | rfl⟩
      · exact .inl (.inl ⟨c, hc, rfl⟩)
      · exact .inl (.inr ⟨c, hc, rfl⟩)
      · exact .inr ⟨c, hc, rfl⟩
    · rintro ((⟨c, hc, rfl⟩ | ⟨c, hc, rfl⟩) | ⟨c, hc, rfl⟩)
      · exact ⟨c, hc, .inl rfl⟩
      · exact ⟨c, hc, .inr (.inl rfl)⟩
      · exact ⟨c, hc, .inr (.inr rfl)⟩
  rw [hmade, Finset.card_union_of_disjoint, Finset.card_union_of_disjoint,
    Finset.card_image_of_injective _ hone, Finset.card_image_of_injective _ htwo,
    Finset.card_image_of_injective _ hthree]
  · exact disjoint_of_length (k := 1) (l := 2) (fun _ => rfl) (fun _ => rfl) (by decide)
  · refine Finset.disjoint_union_left.mpr ⟨?_, ?_⟩
    · exact disjoint_of_length (k := 1) (l := 3) (fun _ => rfl) (fun _ => rfl) (by decide)
    · exact disjoint_of_length (k := 2) (l := 3) (fun _ => rfl) (fun _ => rfl) (by decide)

/-! ## A call that is repeated -/

/-- An entry that is already set is set again without a change. -/
theorem setEntry_of_maps {a paddr : Nat} (maps : Maps (m.read64 a) paddr) :
    setEntry m a (paddr >>> PAGE_OFFSET_BITS) = m := by
  have hback : m.write64 a (m.read64 a) = m := m.writeLE_readLE a 8
  have hframe : BitField.set 12 32 (paddr >>> PAGE_OFFSET_BITS) (m.read64 a) = m.read64 a :=
    BitField.set_get maps.frame
  have hpresent : BitField.set 0 1 1 (m.read64 a) = m.read64 a := BitField.set_get maps.present
  have hrw : BitField.set 1 1 1 (m.read64 a) = m.read64 a := BitField.set_get maps.writable
  simp only [setEntry, hframe, hback, hpresent, hrw]

/-- Where the tables of an address are there, a call changes its page table entry only. -/
theorem allocatePage_of_tableAt {vaddr paddr PT : Nat}
    (hat : tableAt s.mem PML4 (upper vaddr) = some PT) :
    allocatePage requestFrame PML4 vaddr paddr s =
      .ok { s with
        mem := setEntry s.mem (entryAddr PT (PageIndexer.new vaddr).pt)
          (paddr >>> PAGE_OFFSET_BITS) } := by
  rw [← levels_map_snd] at hat
  obtain ⟨tables, hdescend, rfl⟩ := @descendFrom_of_tableAt _ requestFrame _ _ _ _ hat
  rw [allocatePage_eq, hdescend]
  rfl

/-- A page that is mapped to its frame is mapped to it again without a change. -/
theorem allocatePage_of_maps {vaddr paddr PT e : Nat}
    (hat : tableAt s.mem PML4 (upper vaddr) = some PT) (found : lookup PML4 s.mem vaddr = some e)
    (maps : Maps e paddr) : allocatePage requestFrame PML4 vaddr paddr s = .ok s := by
  -- the entry that was found is the one in the page table
  have hpath : path vaddr = upper vaddr ++ [(PageIndexer.new vaddr).pt] := rfl
  rw [lookup, hpath, lookupFrom_tableAt, hat, Option.bind_some, lookupFrom_single] at found
  have hentry : entry s.mem PT (PageIndexer.new vaddr).pt = e := by
    split at found
    · cases found
    · exact Option.some.inj found
  have hsame : setEntry s.mem (entryAddr PT (PageIndexer.new vaddr).pt)
      (paddr >>> PAGE_OFFSET_BITS) = s.mem := by
    apply setEntry_of_maps
    rw [← hentry] at maps
    exact maps
  rw [allocatePage_of_tableAt hat, hsame]

/-- No table is below a PML4 of zeroes. -/
theorem made_zero {mem : Mem} {pmem : σ} (haligned : PML4 % PAGE_SZ = 0)
    (zero : ∀ x, PML4 ≤ x → x < PML4 + PAGE_SZ → mem x = 0) :
    Made PML4 (fun x => if x = PML4 then some [] else none) (⟨mem, pmem, []⟩ : State σ) ∅ := by
  obtain ⟨sound, hempty⟩ := tables_zero haligned zero
  refine ⟨sound, ?_, rfl⟩
  intro js hne _ hlt
  obtain ⟨j, rest, rfl⟩ := List.exists_cons_of_ne_nil hne
  have hnone : tableAt mem PML4 (j :: rest) = none := if_pos (hempty j (hlt j List.mem_cons_self))
  rw [hnone]
  exact iff_of_false Bool.false_ne_true (Finset.notMem_empty _)

/-- **A run takes one frame for each table of its addresses**, in whatever order and however often
they are mapped. From a PML4 of zeroes, over any completed calls with fresh table frames: the frames
taken are as many as there are different values of bits 39 to 47, of bits 30 to 47 and of bits 21 to
47; any call of the run completes when it is made again and takes no frame; and if it was the last
one for its page nothing at all changes. -/
theorem frames_taken_eq {mem : Mem} {pmem : σ} (haligned : PML4 % PAGE_SZ = 0)
    (zero : ∀ x, PML4 ≤ x → x < PML4 + PAGE_SZ → mem x = 0)
    (run : Run (step requestFrame PML4) (fun _ _ => True) ⟨mem, pmem, []⟩ calls t)
    (fresh : Fresh PML4 t.taken) :
    t.taken.length = (calls.map fun c => c.1 / 2 ^ 39 % 2 ^ 9).toFinset.card +
        (calls.map fun c => c.1 / 2 ^ 30 % 2 ^ 18).toFinset.card +
        (calls.map fun c => c.1 / 2 ^ 21 % 2 ^ 27).toFinset.card ∧
      (∀ c ∈ calls, ∃ u, step requestFrame PML4 t c = .ok u ∧ u.taken = t.taken ∧
        u.pmem = t.pmem) ∧
      ∀ pre c post, calls = pre ++ c :: post →
        (∀ later ∈ post, pageNumber later.1 ≠ pageNumber c.1) →
          step requestFrame PML4 t c = .ok t := by
  have start : Made PML4 _ ⟨mem, pmem, []⟩ ∅ := made_zero haligned zero
  obtain ⟨paths, made, all, hmem⟩ := made_of_run run fresh start
  have hmade : ∀ js, js ∈ made ↔ ∃ c ∈ calls, js ∈ pathsFrom [] (upper c.1) := by
    intro js
    rw [hmem js, or_iff_right (Finset.notMem_empty js)]
  -- the page table of a call is there
  have hat : ∀ c ∈ calls, ∃ PT, tableAt t.mem PML4 (upper c.1) = some PT := by
    intro c hc
    have hsome : (tableAt t.mem PML4 (upper c.1)).isSome := by
      refine (all.walks (upper c.1) (List.cons_ne_nil _ _) (Nat.le_refl 3) fun j => upper_lt).mpr ?_
      refine (hmade _).mpr ⟨c, hc, ?_⟩
      show upper c.1 ∈ insert _ (insert _ (insert (upper c.1) ∅))
      simp
    exact Option.isSome_iff_exists.mp hsome
  refine ⟨all.count.trans (card_paths hmade), ?_, ?_⟩
  · intro c hc
    obtain ⟨PT, hPT⟩ := hat c hc
    exact ⟨_, allocatePage_of_tableAt hPT, rfl, rfl⟩
  · intro pre c post hsplit hpost
    have hc : c ∈ calls := hsplit ▸ List.mem_append_right _ List.mem_cons_self
    obtain ⟨PT, hPT⟩ := hat c hc
    obtain ⟨-, -, hlast⟩ := lookup_of_run run fresh start.sound
    obtain ⟨e, found, maps⟩ := hlast c.1 pre c post hsplit rfl
      fun later hlater heq => hpost later hlater (path_inj.mp heq)
    exact allocatePage_of_maps hPT found maps

/-- The three calls take four frames, since the pages share two tables. Made again, the last one
changes nothing, and the first one takes no frame. -/
theorem shared_tables_counted : ∃ t u : State (List Nat),
    Run (step tape 0x1000) (fun _ _ => True) zeroed threeCalls t ∧
      Fresh 0x1000 t.taken ∧ t.taken.length = 4 ∧
      step tape 0x1000 t (0x99999999000, 0x9000) = .ok t ∧
      step tape 0x1000 t (0x99999999999, 0x7000) = .ok u ∧ u.taken = t.taken := by
  obtain ⟨s, t, ok, rest, htaken⟩ := three_calls
  have run : Run (step tape 0x1000) (fun _ _ => True) zeroed threeCalls t :=
    .cons trivial ok (rest.mono fun _ _ _ => trivial)
  have fresh : Fresh 0x1000 t.taken := by
    rw [htaken]
    exact ⟨by decide, by decide, by decide, by decide⟩
  obtain ⟨hcount, hagain, hrepeat⟩ := frames_taken_eq (by decide) (fun _ _ _ => rfl) run fresh
  obtain ⟨u, ok', htaken', -⟩ := hagain (0x99999999999, 0x7000) List.mem_cons_self
  exact ⟨t, u, run, fresh, hcount.trans (by decide),
    hrepeat [(0x99999999999, 0x7000), (0x99999a00000, 0x8000)] _ [] rfl
      (fun later hlater => absurd hlater List.not_mem_nil), ok', htaken'⟩

end Made

end PrintOS.Paging
