import PrintOS.Laws.Memory.PagingInit
import PrintOS.Laws.Memory.SameBitmap
import PrintOS.Lib.FourLevel

/-!
# The address space that the constructor makes

What the processor does with the tables is not what the code does: it takes 40 bits of a frame's
number from an entry where the code has 32, and looks at bits that the code never writes. The tables
are cleared before they are used, so an entry is nothing or the number of a frame with the two lowest
bits set, and the frame of a table is below 4 GiB (`Plain`). Then the two walks agree
(`translate_eq`).

The address space that `cr3` is loaded with follows, for every address (`address_space`): the pages of
the ranges are mapped to themselves, as far as the loops of `__identity_paging` come, and nothing else
is mapped.
-/

namespace PrintOS.Paging

open ByteMemory (Mem)

/-! ## Entries as the processor reads them -/

/-- Nothing, or a frame's number below a bound with `present` and `rw`. -/
def PlainEntry (bound e : Nat) : Prop := e = 0 ∨ ∃ n < bound, e = 2 ^ 12 * n + 3

/-- What the assignments to an entry make of a plain one. -/
theorem PlainEntry.set {bound e : Nat} (plain : PlainEntry bound e) (hbound : bound ≤ 2 ^ 32)
    (frame : Nat) :
    BitField.set 1 1 1 (BitField.set 0 1 1 (BitField.set 12 32 frame e)) =
      2 ^ 12 * (frame % 2 ^ 32) + 3 := by
  simp only [BitField.set]
  rcases plain with rfl | ⟨n, hn, rfl⟩ <;> omega

/-- An entry that is present is to the processor what it is to the code. -/
theorem PlainEntry.fields {bound e : Nat} (plain : PlainEntry bound e) (hbound : bound ≤ 2 ^ 32)
    (present : presentField e ≠ 0) :
    FourLevel.present e = true ∧ FourLevel.large e = false ∧
      FourLevel.frame e = addrField e * 2 ^ 12 ∧ addrField e < bound := by
  rcases plain with rfl | ⟨n, hn, rfl⟩
  · exact absurd rfl present
  · have hfield : addrField (2 ^ 12 * n + 3) = n := by
      rw [addrField, BitField.get]
      omega
    refine ⟨?_, ?_, ?_, ?_⟩
    · rw [FourLevel.present, beq_iff_eq]
      omega
    · rw [FourLevel.large, beq_eq_false_iff_ne]
      omega
    · rw [FourLevel.frame, hfield]
      omega
    · rwa [hfield]

theorem present_absent {e : Nat} (h : presentField e = 0) : FourLevel.present e = false := by
  rw [presentField, BitField.get] at h
  rw [FourLevel.present, beq_eq_false_iff_ne]
  omega

/-- The numbers of tables have 20 bits, those of pages 32. -/
def frameBound (π : List Nat) : Nat := if π.length < 3 then 2 ^ 20 else 2 ^ 32

theorem frameBound_le (π : List Nat) : frameBound π ≤ 2 ^ 32 := by
  rw [frameBound]
  split <;> decide

/-- Every entry of every table is plain. -/
def Plain (paths : Nat → Option (List Nat)) (m : Mem) : Prop :=
  ∀ t π j, paths t = some π → j < 512 → PlainEntry (frameBound π) (entry m t j)

variable {PML4 : Nat} {m m' : Mem} {taken : List Nat} {paths paths' : Nat → Option (List Nat)}

/-- One entry is set. -/
theorem Plain.of_only {t i frame : Nat} {π : List Nat} (plain : Plain paths m)
    (ht : paths t = some π) (only : OnlyEntry paths m m' t i)
    (hset : entry m' t i = 2 ^ 12 * frame + 3) (hframe : frame < frameBound π) :
    Plain paths m' := by
  intro x ρ j hx hj
  rcases only x ρ j hx hj with ⟨rfl, rfl⟩ | hsame
  · obtain rfl := Option.some.inj (ht.symm.trans hx)
    exact .inr ⟨frame, hframe, hset⟩
  · rw [hsame]
    exact plain x ρ j hx hj

/-! ## The two walks -/

/-- The indices of the levels that are left. -/
def indices (v : Nat) : Nat → List Nat
  | 0 => []
  | k + 1 => FourLevel.index k v :: indices v k

theorem path_eq_indices (v : Nat) : path v = indices v 4 := by
  rw [path, pageIndexer_eq]
  rfl

theorem indices_lt {v k j : Nat} (h : j ∈ indices v k) : j < 512 := by
  induction k with
  | zero => cases h
  | succ k ih =>
    rcases List.mem_cons.mp h with rfl | h
    · exact Nat.mod_lt _ (by decide)
    · exact ih h

/-- The table that an upper entry points at, as the processor reads it. -/
theorem frame_eq_tableAddr {e : Nat} (h : addrField e < 2 ^ 20)
    (hframe : FourLevel.frame e = addrField e * 2 ^ 12) : FourLevel.frame e = tableAddr e := by
  rw [hframe, tableAddr, PAGE_OFFSET_BITS, Nat.shiftLeft_eq, Nat.mod_eq_of_lt (by omega)]

theorem walk_eq (tables : Tables PML4 m taken paths) (plain : Plain paths m) {v k : Nat} :
    ∀ {table : Nat} {π : List Nat}, paths table = some π → π.length + (k + 1) = 4 →
      FourLevel.walk m (k + 1) table v =
        (lookupFrom m table (indices v (k + 1))).map fun e => addrField e * 2 ^ 12 + v % 2 ^ 12 := by
  induction k with
  | zero =>
    intro table π ht hlen
    have he : m.read64 (table + 8 * FourLevel.index 0 v) =
      entry m table (FourLevel.index 0 v) := rfl
    rw [indices, indices, lookupFrom_single]
    by_cases present : presentField (entry m table (FourLevel.index 0 v)) = 0
    · rw [if_pos present, FourLevel.walk_absent he (present_absent present), Option.map_none]
    · have hj : FourLevel.index 0 v < 512 := indices_lt (k := 1) List.mem_cons_self
      obtain ⟨hpresent, hsmall, hframe, -⟩ :=
        (plain table π _ ht hj).fields (frameBound_le π) present
      rw [if_neg present, FourLevel.walk_present he hpresent hsmall, FourLevel.walk, hframe,
        Option.map_some]
  | succ k ih =>
    intro table π ht hlen
    have he : m.read64 (table + 8 * FourLevel.index (k + 1) v) =
      entry m table (FourLevel.index (k + 1) v) := rfl
    rw [indices, indices, lookupFrom_cons_cons, ← indices]
    by_cases present : presentField (entry m table (FourLevel.index (k + 1) v)) = 0
    · rw [if_pos present, FourLevel.walk_absent he (present_absent present), Option.map_none]
    · have hj : FourLevel.index (k + 1) v < 512 := indices_lt (k := k + 2) List.mem_cons_self
      obtain ⟨hpresent, hsmall, hframe, hlow⟩ :=
        (plain table π _ ht hj).fields (frameBound_le π) present
      rw [frameBound, if_pos (by omega)] at hlow
      have hlen' : (π ++ [FourLevel.index (k + 1) v]).length = π.length + 1 := List.length_append
      rw [if_neg present, FourLevel.walk_present he hpresent hsmall, frame_eq_tableAddr hlow hframe,
        ih (tables.edge table π _ ht (by omega) hj present) (by omega)]

/-- **The processor and the code find the same page** where the entries are plain. -/
theorem translate_eq (tables : Tables PML4 m taken paths) (plain : Plain paths m) (v : Nat) :
    FourLevel.translate m PML4 v =
      (lookup PML4 m v).map fun e => addrField e * 2 ^ 12 + v % 2 ^ 12 := by
  rw [FourLevel.translate, walk_eq tables plain tables.root rfl, lookup, path_eq_indices]

/-! ## What the calls keep -/

section Calls

variable {σ : Type} {requestFrame : σ → Except Fault (Nat × σ)} {s s' t u : State σ}
variable {table : Nat} {tables : List Nat} {calls : List (Nat × Nat)}

/-- A level leaves plain entries: those of a new table are nothing, and the one that points at it
has its number. -/
theorem getOrCreate_plain {text : String} {i child : Nat} {π : List Nat}
    (sound : Tables PML4 s.mem s.taken paths) (plain : Plain paths s.mem)
    (ht : paths table = some π) (hπ : π.length < 3) (hi : i < 512)
    (ok : getOrCreate requestFrame text (entryAddr table i) s = .ok (child, s'))
    (fresh : Fresh PML4 s'.taken) :
    ∃ paths', Tables PML4 s'.mem s'.taken paths' ∧ Plain paths' s'.mem ∧
      paths' child = some (π ++ [i]) := by
  rcases getOrCreate_ok ok with ⟨present, rfl, rfl⟩ | ⟨absent, -, p, -, rfl⟩
  · exact ⟨paths, sound, plain, sound.edge table π i ht hπ hi present⟩
  · have level := @descended_created _ _ _ _ _ _ _ _ p sound ht hπ hi absent fresh
    refine ⟨_, level.tables, ?_, level.child_path⟩
    have hnew : child ∈ s.taken ++ [child] := List.mem_append_right _ List.mem_cons_self
    have halign := fresh.aligned child hnew
    have hlow := fresh.low child hnew
    have hne : table ≠ child := sound.ne_of_fresh fresh ht
    have hentry : entry s.mem table i = 0 := by
      rcases plain table π i ht hi with hzero | ⟨n, -, he⟩
      · exact hzero
      · rw [entry] at he
        rw [he, presentField, BitField.get] at absent
        omega
    intro x ρ j hx hj
    by_cases hxc : x = child
    · -- the entry that is set is in the table above
      left
      have htable := sound.aligned table π ht
      rw [hxc]
      refine (Mem.read64_congr fun a h1 h2 => setEntry_of_outside ?_).trans
        (entry_memset_self (m := s.mem) hj)
      simp only [entryAddr, PAGE_SZ, FRAME_SZ] at h1 h2 htable halign ⊢
      omega
    · simp only [if_neg hxc] at hx
      rcases level.only x ρ j hx hj with ⟨rfl, rfl⟩ | hsame
      · obtain rfl := Option.some.inj (ht.symm.trans hx)
        have hcleared : (memset s.mem child 0 PAGE_SZ).read64 (entryAddr x j) = 0 :=
          (sound.entry_memset halign hx hne hj).trans hentry
        refine .inr ⟨child / 2 ^ 12, ?_, ?_⟩
        · rw [frameBound, if_pos hπ]
          omega
        · rw [entry, read64_setEntry, hcleared, (show PlainEntry 1 0 from .inl rfl).set (by decide),
            PAGE_OFFSET_BITS, Nat.shiftRight_eq_div_pow, Nat.mod_eq_of_lt (by omega)]
      · rw [hsame]
        exact plain x ρ j hx hj

theorem descendFrom_plain {lv : List (String × Nat)} {ρ : List Nat} (hlt : ∀ l ∈ lv, l.2 < 512)
    (sound : Tables PML4 s.mem s.taken paths) (plain : Plain paths s.mem)
    (hpath : paths table = some ρ) (hlen : ρ.length + lv.length ≤ 3)
    (ok : descendFrom requestFrame lv table s = .ok (tables, u)) (fresh : Fresh PML4 u.taken) :
    ∃ paths', Tables PML4 u.mem u.taken paths' ∧ Plain paths' u.mem ∧
      paths' (tables.getLastD table) = some (ρ ++ lv.map Prod.snd) := by
  induction lv generalizing table tables s ρ paths with
  | nil =>
    cases ok
    exact ⟨paths, sound, plain, hpath.trans (congrArg some (List.append_nil ρ).symm)⟩
  | cons l rest ih =>
    obtain ⟨child, s', tables', hlevel, hrest, rfl⟩ := descendFrom_cons ok
    rw [List.length_cons] at hlen
    obtain ⟨more, hmore⟩ := descendFrom_taken hrest
    obtain ⟨paths₁, sound₁, plain₁, hchild⟩ := getOrCreate_plain sound plain hpath (by omega)
      (hlt l List.mem_cons_self) hlevel (.of_append (hmore ▸ fresh))
    have hlen' : (ρ ++ [l.2]).length = ρ.length + 1 := List.length_append
    obtain ⟨paths₂, sound₂, plain₂, hlast⟩ := ih (fun l hl => hlt l (List.mem_cons_of_mem _ hl))
      sound₁ plain₁ hchild (by omega) hrest
    refine ⟨paths₂, sound₂, plain₂, ?_⟩
    rw [List.getLastD_cons, hlast, List.append_assoc, List.singleton_append, List.map_cons]

/-- Sound tables with plain entries. -/
def PlainTables (PML4 : Nat) (s : State σ) : Prop :=
  ∃ paths, Tables PML4 s.mem s.taken paths ∧ Plain paths s.mem

theorem PlainTables.allocatePage {vaddr paddr : Nat} (plain : PlainTables PML4 s)
    (ok : allocatePage requestFrame PML4 vaddr paddr s = .ok u) (fresh : Fresh PML4 u.taken) :
    PlainTables PML4 u := by
  obtain ⟨paths, sound, plain⟩ := plain
  obtain ⟨tables, s', hdescend, hmem, htaken⟩ := allocatePage_descends ok
  obtain ⟨paths', sound', plain', hlast⟩ := descendFrom_plain (fun l => levels_lt) sound plain
    sound.root (Nat.le_refl 3) hdescend (htaken ▸ fresh)
  have only : OnlyEntry paths' s'.mem u.mem (tables.getLastD PML4) (PageIndexer.new vaddr).pt := by
    rw [hmem]
    exact sound'.onlyEntry_setEntry hlast (pt_lt vaddr)
  have hbound : (paddr >>> PAGE_OFFSET_BITS) % 2 ^ 32 <
      frameBound ([] ++ (levels vaddr).map Prod.snd) :=
    Nat.mod_lt _ (by decide)
  refine ⟨paths', ?_, plain'.of_only hlast only ?_ hbound⟩
  · rw [htaken]
    exact sound'.of_page hlast rfl only
  · rw [hmem, entry, read64_setEntry]
    exact (plain' _ _ _ hlast (pt_lt vaddr)).set (frameBound_le _) _

theorem PlainTables.of_run (plain : PlainTables PML4 s)
    (run : Run (step requestFrame PML4) (fun _ _ => True) s calls t) (fresh : Fresh PML4 t.taken) :
    PlainTables PML4 t := by
  refine run.invariant_within (G := fun s => Fresh PML4 s.taken) (P := PlainTables PML4) ?_ ?_ fresh
    plain
  · intro s call u ok fresh
    obtain ⟨more, hmore⟩ := allocatePage_taken ok
    exact .of_append (hmore ▸ fresh)
  · exact fun s call u plain _ ok fresh => plain.allocatePage ok fresh

/-! ## The calls of the constructor -/

variable {kernel : KernelData} {mem : Mem} {pmem : σ}

/-- The calls of `__identity_paging` for a range: its address and its size. -/
def rangeCalls (range : Nat × Nat) : List (Nat × Nat) :=
  identityCalls (range.2 / (PAGE_SZ + 1) + 1) range.1

theorem run_segments {descs : List EfiMMapDesc}
    (ok : mapSegments requestFrame PML4 descs s = .ok t) :
    Run (step requestFrame PML4) (fun _ _ => True) s ((descs.map segment).flatMap rangeCalls) t := by
  induction descs generalizing s with
  | nil =>
    cases ok
    exact .nil _
  | cons desc rest ih =>
    obtain ⟨u, hfirst, hrest⟩ := Except.bind_eq_ok.mp ok
    exact (run_identityFrom hfirst).append (ih hrest)

/-- The constructor up to `init` is one run, with a call for each page of the ranges. -/
theorem run_construct (ok : construct requestFrame PML4 kernel mem pmem = .ok t) :
    Run (step requestFrame PML4) (fun _ _ => True) ⟨memset mem PML4 0 (8 * 512), pmem, []⟩
      ((ranges kernel).flatMap rangeCalls) t := by
  obtain ⟨s₁, hsegments, ok⟩ := Except.bind_eq_ok.mp ok
  obtain ⟨s₂, hframebuffer, ok⟩ := Except.bind_eq_ok.mp ok
  obtain ⟨s₃, hlapic, ok⟩ := Except.bind_eq_ok.mp ok
  obtain ⟨s₄, hioapic, hhpet⟩ := Except.bind_eq_ok.mp ok
  have run := (((run_segments hsegments).append (run_identityFrom hframebuffer)).append
    (run_identityFrom hlapic)).append ((run_identityFrom hioapic).append (run_identityFrom hhpet))
  have hcalls : (ranges kernel).flatMap rangeCalls =
      ((kernel.mmap.descs.map segment).flatMap rangeCalls ++
        rangeCalls (kernel.framebuffer.fbAddr, kernel.framebuffer.bSize) ++
        rangeCalls (kernel.lapicAddr, 4096)) ++
        (rangeCalls (kernel.ioApicAddr, 8) ++
          rangeCalls (kernel.hpet.baseAddress, kernel.hpet.getMmioSz)) := by
    simp only [ranges, List.flatMap_append, List.flatMap_cons, List.flatMap_nil, List.append_nil,
      List.append_assoc]
  rw [hcalls]
  exact run

/-- The address is on a page that the loop for one of the ranges comes to. -/
def Reached (kernel : KernelData) (v : Nat) : Prop :=
  ∃ r ∈ ranges kernel, r.1 / PAGE_SZ ≤ v / PAGE_SZ ∧
    v / PAGE_SZ ≤ r.1 / PAGE_SZ + r.2 / (PAGE_SZ + 1)

theorem reached_lt (low : ∀ r ∈ ranges kernel, r.1 + r.2 < 2 ^ 44) {v : Nat}
    (reached : Reached kernel v) : v < 2 ^ 48 := by
  obtain ⟨r, hr, -, hlast⟩ := reached
  have hlow := low r hr
  simp only [PAGE_SZ, FRAME_SZ] at hlast
  omega

/-- Whether an address is reached is known from its page. -/
theorem reached_congr {v w : Nat} (h : v / PAGE_SZ = w / PAGE_SZ) :
    Reached kernel v ↔ Reached kernel w := by
  rw [Reached, Reached, h]

/-- The calls for the ranges are for the pages that are reached, each mapped to itself. -/
theorem mem_rangeCalls (low : ∀ r ∈ ranges kernel, r.1 + r.2 < 2 ^ 44) {call : Nat × Nat}
    (hcall : call ∈ (ranges kernel).flatMap rangeCalls) :
    call.2 = call.1 ∧ call.1 < 2 ^ 44 ∧ Reached kernel call.1 := by
  obtain ⟨r, hr, hcall⟩ := List.mem_flatMap.mp hcall
  obtain ⟨i, hi, rfl⟩ := (mem_identityCalls (turns_noWrap (low r hr))).mp hcall
  have hlow := low r hr
  refine ⟨rfl, ?_, r, hr, ?_⟩
  · simp only [PAGE_SZ, FRAME_SZ] at hi ⊢
    omega
  · rw [turn_div]
    omega

theorem exists_rangeCall (low : ∀ r ∈ ranges kernel, r.1 + r.2 < 2 ^ 44) {v : Nat}
    (reached : Reached kernel v) :
    ∃ call ∈ (ranges kernel).flatMap rangeCalls, call.1 / PAGE_SZ = v / PAGE_SZ := by
  obtain ⟨r, hr, hfirst, hlast⟩ := reached
  have hi : v / PAGE_SZ - r.1 / PAGE_SZ < r.2 / (PAGE_SZ + 1) + 1 := by omega
  refine ⟨_, List.mem_flatMap.mpr ⟨r, hr, (mem_identityCalls (turns_noWrap (low r hr))).mpr
    ⟨_, hi, rfl⟩⟩, ?_⟩
  rw [turn_div]
  omega

/-- Below 2^48 the page of an address is its page number. -/
theorem path_eq_iff {a v : Nat} (ha : a < 2 ^ 48) (hv : v < 2 ^ 48) :
    path a = path v ↔ a / PAGE_SZ = v / PAGE_SZ := by
  rw [path_inj, pageNumber, pageNumber]
  simp only [PAGE_SZ, FRAME_SZ]
  omega

/-- The entries that calls for the pages of the ranges leave, from a cleared PML4 on. -/
theorem lookup_ranges {cleared : Mem} (haligned : PML4 % PAGE_SZ = 0)
    (zero : ∀ x, PML4 ≤ x → x < PML4 + PAGE_SZ → cleared x = 0)
    (low : ∀ r ∈ ranges kernel, r.1 + r.2 < 2 ^ 44)
    (run : Run (step requestFrame PML4) (fun _ _ => True) ⟨cleared, pmem, []⟩
      ((ranges kernel).flatMap rangeCalls) t) (fresh : Fresh PML4 t.taken) {v : Nat}
    (hv : v < 2 ^ 48) :
    (Reached kernel v → ∃ e, lookup PML4 t.mem v = some e ∧ addrField e = v / PAGE_SZ) ∧
      (¬ Reached kernel v → lookup PML4 t.mem v = none) := by
  obtain ⟨tables, hempty⟩ := tables_zero haligned zero
  obtain ⟨-, hkept, hlast⟩ := lookup_of_run run fresh tables
  have hcall : ∀ call ∈ (ranges kernel).flatMap rangeCalls,
      (path call.1 = path v ↔ call.1 / PAGE_SZ = v / PAGE_SZ) := by
    intro call hmem
    have hlt := (mem_rangeCalls low hmem).2.1
    exact path_eq_iff (by omega) hv
  constructor
  · intro reached
    obtain ⟨call, hmem, hsame⟩ := exists_rangeCall low reached
    have hcalled : ∃ call ∈ (ranges kernel).flatMap rangeCalls, path call.1 = path v :=
      ⟨call, hmem, (hcall call hmem).mpr hsame⟩
    obtain ⟨pre, call, post, hsplit, hsame, hpost⟩ := exists_last hcalled
    have hmem : call ∈ (ranges kernel).flatMap rangeCalls := by
      rw [hsplit]
      exact List.mem_append_right _ List.mem_cons_self
    obtain ⟨e, he, hmaps⟩ := hlast v pre call post hsplit hsame hpost
    obtain ⟨hself, hlow, -⟩ := mem_rangeCalls low hmem
    refine ⟨e, he, ?_⟩
    have hnumber := (hcall call hmem).mp hsame
    rw [hmaps.frame, hself, frameNumber_eq, hnumber]
    simp only [PAGE_SZ, FRAME_SZ] at hnumber ⊢
    omega
  · intro missed
    have hfirst : (PageIndexer.new v).pml4 ∈ path v := List.mem_cons_self
    rw [hkept v ?_]
    · exact lookupFrom_empty (hempty _ (path_lt hfirst))
    · intro call hmem hsame
      obtain ⟨-, -, r, hr, hreach⟩ := mem_rangeCalls low hmem
      rw [(hcall call hmem).mp hsame] at hreach
      exact missed ⟨r, hr, hreach⟩

/-! ## The address space -/

/-- A cleared PML4 has plain entries. -/
theorem plainTables_zero {cleared : Mem} (haligned : PML4 % PAGE_SZ = 0)
    (zero : ∀ x, PML4 ≤ x → x < PML4 + PAGE_SZ → cleared x = 0) :
    PlainTables PML4 (⟨cleared, pmem, []⟩ : State σ) := by
  obtain ⟨tables, -⟩ := tables_zero haligned zero
  refine ⟨_, tables, fun x π j hx hj => .inl ?_⟩
  by_cases hroot : x = PML4
  · subst hroot
    refine Mem.readLE_eq_zero fun a h1 h2 => zero a ?_ ?_
    · simp only [entryAddr] at h1
      omega
    · simp only [entryAddr] at h2
      simp only [PAGE_SZ, FRAME_SZ]
      omega
  · simp only [if_neg hroot] at hx
    cases hx

/-- What the processor makes of an address after the calls for the ranges. -/
theorem translate_ranges {cleared : Mem} (haligned : PML4 % PAGE_SZ = 0)
    (zero : ∀ x, PML4 ≤ x → x < PML4 + PAGE_SZ → cleared x = 0)
    (low : ∀ r ∈ ranges kernel, r.1 + r.2 < 2 ^ 44)
    (run : Run (step requestFrame PML4) (fun _ _ => True) ⟨cleared, pmem, []⟩
      ((ranges kernel).flatMap rangeCalls) t) (fresh : Fresh PML4 t.taken) {v : Nat}
    (hv : v < 2 ^ 48) (p : Nat) :
    FourLevel.translate t.mem PML4 v = some p ↔ Reached kernel v ∧ p = v := by
  obtain ⟨paths, tables, plain⟩ := (plainTables_zero haligned zero).of_run run fresh
  obtain ⟨hreached, hmissed⟩ := lookup_ranges haligned zero low run fresh hv
  rw [translate_eq tables plain]
  by_cases reached : Reached kernel v
  · obtain ⟨e, he, hframe⟩ := hreached reached
    have hself : v / PAGE_SZ * 2 ^ 12 + v % 2 ^ 12 = v := Nat.div_add_mod' v (2 ^ 12)
    rw [he, Option.map_some, hframe, hself, Option.some_inj]
    exact ⟨fun h => ⟨reached, h.symm⟩, fun h => h.2.symm⟩
  · rw [hmissed reached, Option.map_none]
    exact iff_of_false (fun h => nomatch h) fun h => reached h.1

/-- **The address space that `cr3` is loaded with.** For ranges below 2^44 and fresh table frames, the
processor takes an address to itself exactly when one of the loops has come to its page; every other
address is a page fault. -/
theorem address_space (haligned : PML4 % PAGE_SZ = 0)
    (low : ∀ r ∈ ranges kernel, r.1 + r.2 < 2 ^ 44)
    (ok : construct requestFrame PML4 kernel mem pmem = .ok t) (fresh : Fresh PML4 t.taken)
    {v : Nat} (hv : v < 2 ^ 48) (p : Nat) :
    FourLevel.translate t.mem PML4 v = some p ↔ Reached kernel v ∧ p = v :=
  translate_ranges haligned memset_cleared low (run_construct ok) fresh hv p

end Calls

/-- In the small machine the local APIC is mapped to itself, and the address after the framebuffer is
not mapped. -/
theorem small_address_space : ∃ t, construct tape 0x10000 (machine 0xfed00000 0x1f00) (fun _ => 0)
    frames = .ok t ∧ FourLevel.translate t.mem 0x10000 0xfee000b0 = some 0xfee000b0 ∧
      FourLevel.translate t.mem 0x10000 0x80001000 = none := by
  obtain ⟨t, ok, htaken⟩ : ∃ t, construct tape 0x10000 (machine 0xfed00000 0x1f00) (fun _ => 0)
      frames = .ok t ∧ t.taken = frames := by
    apply Except.ok_of_toOption_map
    simp only [construct, init, machine, mapSegments, identityPaging, identityFrom, allocatePage,
      getOrCreate, memset_eq]
    decide +kernel
  have fresh : Fresh 0x10000 t.taken := htaken ▸ fresh_frames
  have low : ∀ r ∈ ranges (machine 0xfed00000 0x1f00), r.1 + r.2 < 2 ^ 44 := by decide +kernel
  refine ⟨t, ok, (address_space (by decide) low ok fresh (by decide) _).mpr ?_, ?_⟩
  · exact ⟨⟨(0xfee00000, 4096), by decide +kernel, by decide, by decide⟩, rfl⟩
  · rw [Option.eq_none_iff_forall_ne_some]
    intro p hp
    obtain ⟨⟨r, hr, hreach⟩, -⟩ := (address_space (by decide) low ok fresh (by decide) p).mp hp
    revert r
    decide +kernel

end PrintOS.Paging
