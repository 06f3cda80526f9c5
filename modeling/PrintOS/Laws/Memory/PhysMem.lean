import PrintOS.Laws.Memory.SameBitmap

/-!
# The allocator and the page tables keep apart

Where the kernel keeps its own frames (`Safe`), the bitmap and the tables do not get into each
other's way. The simulation relation `Rel` compares the bitmap's bytes with one memory and the tables'
bytes with another: a step of the one memory is a step with the two (`step_refines`). A frame of a
client stays what it is (`Leaves`).

A step writes to bytes of one kind: those of the bitmap, of a table, or of a client. A table that is
made is at a frame that was free, and so was of no kind before (`Safe.newTable`).
-/

namespace PrintOS

open ByteMemory (Mem Byte)

/-! ## The kernel's own memory -/

namespace PhysMem

open Paging (entry entryAddr setEntry Fresh Tables State)
open PMem (SameBitmap)

variable {PML4 : Nat} {m m' : PhysMem} {s s' : State PMem} {paths : Nat → Option (List Nat)}
variable {t i f idx x : Nat}

/-- The kernel keeps its own memory: what is to be kept is locked, and the bitmap is in no table.
There is no memory from 4 GiB up, so that the table frames have their numbers in the entries. -/
structure Safe (PML4 : Nat) (m : PhysMem) : Prop where
  small : m.pmem.frames ≤ 2 ^ 20
  root : PML4 % PAGE_SZ = 0
  fresh : Fresh PML4 m.taken
  locked : ∀ idx < m.pmem.frames, m.Kept PML4 idx → m.pmem.locked idx = true
  apart : ∀ x, BitmapByte m.pmem x → ¬ InTable PML4 m.taken x

/-- The one memory has the bitmap of the first memory and the tables of the other. -/
structure Rel (PML4 : Nat) (m : PhysMem) (s : State PMem) : Prop where
  pmem : SameBitmap m.pmem s.pmem
  taken : s.taken = m.taken
  tables : ∀ x, InTable PML4 m.taken x → s.mem x = m.mem x

theorem Rel.refl (PML4 : Nat) (m : PhysMem) : Rel PML4 m ⟨m.mem, m.pmem, m.taken⟩ :=
  ⟨.refl _, rfl, fun _ _ => rfl⟩

/-- A table with a path is one of those that are kept. -/
theorem Rel.mem_of_path (rel : Rel PML4 m s) (sound : Tables PML4 s.mem s.taken paths)
    {π : List Nat} (ht : paths t = some π) : t ∈ PML4 :: m.taken := by
  rcases sound.owned t π ht with rfl | hmem
  · exact List.mem_cons_self
  · exact List.mem_cons_of_mem _ (rel.taken ▸ hmem)

theorem inTable_entry {taken : List Nat} (ht : t ∈ PML4 :: taken) (hi : i < 512)
    (h1 : entryAddr t i ≤ x) (h2 : x < entryAddr t i + 8) : InTable PML4 taken x := by
  refine ⟨t, ht, ?_, ?_⟩
  · simp only [entryAddr] at h1
    omega
  · simp only [entryAddr, PAGE_SZ, FRAME_SZ] at h2 ⊢
    omega

/-- The entries of a table are the same on both sides. -/
theorem Rel.entry_eq (rel : Rel PML4 m s) (ht : t ∈ PML4 :: m.taken) (hi : i < 512) :
    entry s.mem t i = entry m.mem t i :=
  Mem.read64_congr fun x h1 h2 => rel.tables x (inTable_entry ht hi h1 h2)

/-- So is the page map. -/
theorem Rel.lookup_eq (rel : Rel PML4 m s) (sound : Tables PML4 s.mem s.taken paths) (w : Nat) :
    Paging.lookup PML4 m.mem w = Paging.lookup PML4 s.mem w :=
  sound.lookupFrom_congr (fun _ _ _ ht hj => (rel.entry_eq (rel.mem_of_path sound ht) hj).symm)
    sound.root (Nat.le_refl 4) fun _ hj => Paging.path_lt hj

/-! ## A new table -/

/-- A frame that is free is not the kernel's. -/
theorem Safe.not_kept (safe : Safe PML4 m) (hlt : idx < m.pmem.frames)
    (free : m.pmem.locked idx = false) : ¬ m.Kept PML4 idx := by
  intro kept
  rw [safe.locked idx hlt kept] at free
  cases free

/-- What a request for a table answers with. -/
structure NewTable (PML4 : Nat) (m : PhysMem) (idx f : Nat) : Prop where
  address : f = idx * FRAME_SZ
  aligned : f % PAGE_SZ = 0
  low : f < 2 ^ 32
  bitmap : ∀ x, BitmapByte m.pmem x → x < f ∨ f + PAGE_SZ ≤ x
  tables : ∀ x, InTable PML4 m.taken x → x < f ∨ f + PAGE_SZ ≤ x

theorem Safe.newTable (safe : Safe PML4 m) (hlt : idx < m.pmem.frames)
    (free : m.pmem.locked idx = false) : NewTable PML4 m idx (PMem.idxToFramePtr idx) := by
  have hsmall := safe.small
  have hptr : PMem.idxToFramePtr idx = idx * FRAME_SZ := by
    refine u64_of_lt ?_
    simp only [FRAME_SZ]
    omega
  have hother : ∀ x, BitmapByte m.pmem x ∨ InTable PML4 m.taken x →
      x < idx * FRAME_SZ ∨ idx * FRAME_SZ + PAGE_SZ ≤ x := by
    intro x own
    by_contra inside
    refine safe.not_kept hlt free (.inr ⟨x, ?_, own⟩)
    simp only [PAGE_SZ, FRAME_SZ] at inside ⊢
    omega
  rw [hptr]
  refine ⟨rfl, ?_, ?_, fun x hx => hother x (.inl hx), fun x hx => hother x (.inr hx)⟩
  · exact Nat.mul_mod_left idx FRAME_SZ
  · simp only [FRAME_SZ]
    omega

theorem NewTable.fresh (new : NewTable PML4 m idx f) (safe : Safe PML4 m) :
    Fresh PML4 (m.taken ++ [f]) := by
  have hother : f ∉ PML4 :: m.taken := by
    intro hf
    have := new.tables f ⟨f, hf, Nat.le_refl f, Nat.lt_add_of_pos_right (by decide)⟩
    simp only [PAGE_SZ, FRAME_SZ] at this
    omega
  have hmem : ∀ g ∈ m.taken ++ [f], g ∈ m.taken ∨ g = f := by
    intro g hg
    exact (List.mem_append.mp hg).imp_right List.mem_singleton.mp
  refine ⟨?_, ?_, ?_, ?_⟩
  · refine List.nodup_append.mpr ⟨safe.fresh.nodup, List.nodup_singleton f, ?_⟩
    rintro g hg h hh rfl
    rw [List.mem_singleton.mp hh] at hg
    exact hother (List.mem_cons_of_mem _ hg)
  · intro g hg
    rcases hmem g hg with hg | rfl
    · exact safe.fresh.aligned g hg
    · exact new.aligned
  · intro g hg
    rcases hmem g hg with hg | rfl
    · exact safe.fresh.low g hg
    · exact new.low
  · intro hroot
    rcases hmem PML4 hroot with hg | rfl
    · exact safe.fresh.root hg
    · exact hother List.mem_cons_self

theorem inTable_append {taken : List Nat} : InTable PML4 (taken ++ [f]) x ↔
    InTable PML4 taken x ∨ f ≤ x ∧ x < f + PAGE_SZ := by
  constructor
  · rintro ⟨t, ht, hx⟩
    rcases List.mem_append.mp (List.cons_append ▸ ht) with ht | ht
    · exact .inl ⟨t, ht, hx⟩
    · rw [List.mem_singleton.mp ht] at hx
      exact .inr hx
  · rintro (⟨t, ht, hx⟩ | hx)
    · exact ⟨t, List.mem_append_left [f] ht, hx⟩
    · exact ⟨f, List.mem_append_right (PML4 :: taken) (List.mem_singleton_self f), hx⟩

/-! ## One level -/

/-- The two ways through an upper level. -/
theorem getOrCreate_ok {text : String} {addr child : Nat}
    (ok : getOrCreate text addr m = .ok (child, m')) :
    (presentField (m.mem.read64 addr) ≠ 0 ∧ child = tableAddr (m.mem.read64 addr) ∧ m' = m) ∨
    (presentField (m.mem.read64 addr) = 0 ∧ child ≠ 0 ∧ ∃ p,
      m.pmem.requestFrame = .ok (child, p) ∧
      m' = { pmem := { p with
               mem := setEntry (memset p.mem child 0 PAGE_SZ) addr (child >>> PAGE_OFFSET_BITS) }
             taken := m.taken ++ [child] }) := by
  unfold getOrCreate at ok
  split at ok
  · next h =>
    obtain ⟨⟨table, p⟩, hreq, ok⟩ := Except.bind_eq_ok.mp ok
    obtain ⟨_, hnull, ok⟩ := Except.bind_eq_ok.mp ok
    obtain ⟨rfl, rfl⟩ := Prod.mk.inj (Except.ok.inj ok)
    exact .inr ⟨h, kassert_eq_ok.mp hnull, p, hreq, rfl⟩
  · next h =>
    obtain ⟨rfl, rfl⟩ := Prod.mk.inj (Except.ok.inj ok)
    exact .inl ⟨h, rfl, rfl⟩

/-- A write to the tables leaves the bitmap. -/
theorem sameBitmap_setMem {p : PMem} {mem : Mem} (h : ∀ x, BitmapByte p x → mem x = p.mem x) :
    SameBitmap p { p with mem := mem } :=
  ⟨rfl, h⟩

/-- With one table more, its frame is kept too. -/
theorem kept_newTable {p : PMem} {mem : Mem} {j : Nat} (new : NewTable PML4 m idx f)
    (hbyte : ∀ x, BitmapByte p x ↔ BitmapByte m.pmem x)
    (kept : Kept PML4 { pmem := { p with mem := mem }, taken := m.taken ++ [f] } j) :
    m.Kept PML4 j ∨ j = idx := by
  rcases kept with rfl | ⟨x, rfl, hx | hx⟩
  · exact .inl (.inl rfl)
  · exact .inl (.inr ⟨x, rfl, .inl ((hbyte x).mp hx)⟩)
  · rcases inTable_append.mp hx with hx | hx
    · exact .inl (.inr ⟨x, rfl, .inr hx⟩)
    · right
      have haddr := new.address
      simp only [PAGE_SZ, FRAME_SZ] at hx haddr ⊢
      omega

/-- The kernel goes on keeping its memory when one frame more is locked, and is a table. -/
theorem Safe.of_newTable {p : PMem} {mem : Mem} (safe : Safe PML4 m) (new : NewTable PML4 m idx f)
    (hframes : p.frames = m.pmem.frames) (hbyte : ∀ x, BitmapByte p x ↔ BitmapByte m.pmem x)
    (hlocked : ∀ j, p.locked j = (m.pmem.locked j || decide (j = idx)))
    (hmem : ∀ x, BitmapByte p x → mem x = p.mem x) :
    Safe PML4 { pmem := { p with mem := mem }, taken := m.taken ++ [f] } := by
  have same := sameBitmap_setMem hmem
  refine ⟨hframes ▸ safe.small, safe.root, new.fresh safe, ?_, ?_⟩
  · intro j hj kept
    have hkept := kept_newTable new hbyte kept
    have hget : PMem.locked { p with mem := mem } j = p.locked j := same.locked hj
    rw [hget, hlocked]
    rcases hkept with hkept | rfl
    · rw [safe.locked j (hframes ▸ hj) hkept, Bool.true_or]
    · rw [decide_eq_true rfl, Bool.or_true]
  · intro x hx htable
    have hx' := (hbyte x).mp hx
    rcases inTable_append.mp htable with htable | hin
    · exact safe.apart x hx' htable
    · have := new.bitmap x hx'
      omega

/-- A frame of a client: it is locked, and the kernel does not keep it. -/
structure Client (PML4 : Nat) (m : PhysMem) (idx : Nat) : Prop where
  inside : idx < m.pmem.frames
  locked : m.pmem.locked idx = true
  other : ¬ m.Kept PML4 idx

/-- The clients' frames stay theirs, with what is in them. -/
def KeepsClients (PML4 : Nat) (m m' : PhysMem) : Prop :=
  ∀ idx, Client PML4 m idx → Client PML4 m' idx ∧ ∀ x, x / FRAME_SZ = idx → m'.mem x = m.mem x

theorem KeepsClients.refl (PML4 : Nat) (m : PhysMem) : KeepsClients PML4 m m :=
  fun _ client => ⟨client, fun _ _ => rfl⟩

theorem KeepsClients.trans {m'' : PhysMem} (first : KeepsClients PML4 m m')
    (second : KeepsClients PML4 m' m'') : KeepsClients PML4 m m'' := by
  intro idx client
  obtain ⟨client', hmem⟩ := first idx client
  obtain ⟨client'', hmem'⟩ := second idx client'
  exact ⟨client'', fun x hx => (hmem' x hx).trans (hmem x hx)⟩

/-- What is in a client's frame is in neither the bitmap nor a table. -/
theorem Client.bitmap (client : Client PML4 m (x / FRAME_SZ)) : ¬ BitmapByte m.pmem x :=
  fun h => client.other (.inr ⟨x, rfl, .inl h⟩)

theorem Client.tables (client : Client PML4 m (x / FRAME_SZ)) : ¬ InTable PML4 m.taken x :=
  fun h => client.other (.inr ⟨x, rfl, .inr h⟩)

/-- An entry of a table is not in a client's frame. -/
theorem Client.entry (client : Client PML4 m (x / FRAME_SZ)) (ht : t ∈ PML4 :: m.taken)
    (hi : i < 512) : x < entryAddr t i ∨ entryAddr t i + 8 ≤ x := by
  by_contra inside
  exact client.tables (inTable_entry ht hi (by omega) (by omega))

/-- A new table is in no client's frame. -/
theorem keepsClients_newTable {p : PMem} {mem : Mem} (new : NewTable PML4 m idx f)
    (hframes : p.frames = m.pmem.frames) (hbyte : ∀ x, BitmapByte p x ↔ BitmapByte m.pmem x)
    (free : m.pmem.locked idx = false)
    (hlocked : ∀ j, p.locked j = (m.pmem.locked j || decide (j = idx)))
    (hmem : ∀ x, BitmapByte p x → mem x = p.mem x)
    (hrest : ∀ x, Client PML4 m (x / FRAME_SZ) → x < f ∨ f + PAGE_SZ ≤ x → mem x = m.mem x) :
    KeepsClients PML4 m { pmem := { p with mem := mem }, taken := m.taken ++ [f] } := by
  intro j client
  have hne : j ≠ idx := by
    rintro rfl
    rw [client.locked] at free
    cases free
  have hget : PMem.locked { p with mem := mem } j = p.locked j :=
    (sameBitmap_setMem hmem).locked (hframes ▸ client.inside)
  refine ⟨⟨hframes ▸ client.inside, ?_, fun kept => ?_⟩, ?_⟩
  · rw [hget, hlocked, client.locked, Bool.true_or]
  · exact client.other ((kept_newTable new hbyte kept).resolve_right hne)
  · rintro x rfl
    refine hrest x client ?_
    have haddr := new.address
    simp only [PAGE_SZ, FRAME_SZ] at hne haddr ⊢
    omega

/-- **One upper level in the one memory** is that level with two memories. -/
theorem level {text : String} {child : Nat} {π : List Nat} (safe : Safe PML4 m)
    (rel : Rel PML4 m s) (sound : Tables PML4 s.mem s.taken paths) (ht : paths t = some π)
    (hi : i < 512) (ok : getOrCreate text (entryAddr t i) m = .ok (child, m')) :
    ∃ s', Paging.getOrCreate PMem.requestFrame text (entryAddr t i) s = .ok (child, s') ∧
      Safe PML4 m' ∧ Rel PML4 m' s' ∧ KeepsClients PML4 m m' := by
  have hmem := rel.mem_of_path sound ht
  have hentry : s.mem.read64 (entryAddr t i) = m.mem.read64 (entryAddr t i) :=
    rel.entry_eq hmem hi
  rcases getOrCreate_ok ok with ⟨present, rfl, rfl⟩ | ⟨absent, hnull, p, hreq, rfl⟩
  · refine ⟨s, ?_, safe, rel, .refl _ _⟩
    rw [Paging.getOrCreate, hentry, if_neg present]
    rfl
  · obtain ⟨q, hreq', same⟩ := rel.pmem.requestFrame hreq
    obtain ⟨-, ⟨-, rfl, -⟩ | ⟨idx, hsome, rfl, rfl⟩⟩ := PMem.requestFrame_ok hreq
    · exact absurd rfl hnull
    obtain ⟨free, -, hlt⟩ := PMem.findFree_some hsome
    have new := safe.newTable hlt free
    have hframes : (m.pmem.lockFrame idx).frames = m.pmem.frames := PMem.frames_lockFrame
    have hbyte : ∀ x, BitmapByte (m.pmem.lockFrame idx) x ↔ BitmapByte m.pmem x := by
      intro x
      rw [BitmapByte, BitmapByte, hframes, PMem.bitmap_lockFrame]
    have hrequest : ∀ x, ¬ BitmapByte m.pmem x → (m.pmem.lockFrame idx).mem x = m.mem x :=
      fun x hx => PMem.lockFrame_outside hlt hx
    generalize PMem.idxToFramePtr idx = child at *
    -- the bitmap is in neither of the two tables that are written to
    have hkeep : ∀ x, BitmapByte (m.pmem.lockFrame idx) x →
        setEntry (memset (m.pmem.lockFrame idx).mem child 0 PAGE_SZ) (entryAddr t i)
          (child >>> PAGE_OFFSET_BITS) x = (m.pmem.lockFrame idx).mem x := by
      intro x hx
      have hx' := (hbyte x).mp hx
      have hother : x < entryAddr t i ∨ entryAddr t i + 8 ≤ x := by
        by_contra inside
        exact safe.apart x hx' (inTable_entry hmem hi (by omega) (by omega))
      exact (Paging.setEntry_of_outside hother).trans (Mem.fill_of_outside (new.bitmap x hx'))
    refine ⟨{ mem := setEntry (memset s.mem child 0 PAGE_SZ) (entryAddr t i)
                (child >>> PAGE_OFFSET_BITS)
              pmem := q
              taken := s.taken ++ [child] }, ?_, ?_, ?_, ?_⟩
    · simp only [Paging.getOrCreate, hentry, if_pos absent, hreq', Except.ok_bind,
        kassert_of hnull]
      rfl
    · exact safe.of_newTable (p := { m.pmem.lockFrame idx with lastFreeIdx := idx }) new hframes
        hbyte (PMem.locked_lockFrame m.pmem idx) hkeep
    · refine ⟨⟨?_, ?_⟩, congrArg (· ++ [child]) rel.taken, ?_⟩
      · rw [same.fields]
      · intro x hx
        exact (same.bytes x hx).trans (hkeep x hx).symm
      · refine Paging.setEntry_congr (fun x h1 h2 => ?_) (Paging.memset_congr fun x hx hout => ?_)
        · exact inTable_append.mpr (.inl (inTable_entry hmem hi h1 h2))
        · rcases inTable_append.mp hx with hx | hin
          · have hx' : ¬ BitmapByte m.pmem x := fun h => safe.apart x h hx
            rw [rel.tables x hx]
            exact (hrequest x hx').symm
          · omega
    · refine keepsClients_newTable (p := { m.pmem.lockFrame idx with lastFreeIdx := idx }) new
        hframes hbyte free (PMem.locked_lockFrame m.pmem idx) hkeep fun x client hout => ?_
      rw [Paging.setEntry_of_outside (client.entry hmem hi), memset, Mem.fill_of_outside hout]
      exact hrequest x client.bitmap

/-- The level, and where its table is. -/
theorem level_descends {text : String} {child : Nat} {π : List Nat} (safe : Safe PML4 m)
    (rel : Rel PML4 m s) (sound : Tables PML4 s.mem s.taken paths) (ht : paths t = some π)
    (hπ : π.length < 3) (hi : i < 512) (ok : getOrCreate text (entryAddr t i) m = .ok (child, m')) :
    ∃ s' paths', Paging.getOrCreate PMem.requestFrame text (entryAddr t i) s = .ok (child, s') ∧
      Safe PML4 m' ∧ Rel PML4 m' s' ∧ KeepsClients PML4 m m' ∧
      Tables PML4 s'.mem s'.taken paths' ∧ paths' child = some (π ++ [i]) := by
  obtain ⟨s', ok', safe', rel', keeps⟩ := level safe rel sound ht hi ok
  obtain ⟨paths', level⟩ := Paging.getOrCreate_descends sound ht hπ hi ok'
    (rel'.taken ▸ safe'.fresh)
  exact ⟨s', paths', ok', safe', rel', keeps, level.tables, level.child_path⟩

/-! ## One step -/

/-- A write outside of the bitmap. -/
theorem Safe.setMem {mem : Mem} (safe : Safe PML4 m)
    (hmem : ∀ x, BitmapByte m.pmem x → mem x = m.mem x) : Safe PML4 (m.setMem mem) where
  small := safe.small
  root := safe.root
  fresh := safe.fresh
  locked idx hlt kept := by
    have hget : (m.setMem mem).pmem.locked idx = m.pmem.locked idx :=
      (sameBitmap_setMem hmem).locked hlt
    rw [hget]
    exact safe.locked idx hlt kept
  apart := safe.apart

theorem Client.setMem {mem : Mem} (client : Client PML4 m idx)
    (hmem : ∀ x, BitmapByte m.pmem x → mem x = m.mem x) : Client PML4 (m.setMem mem) idx where
  inside := client.inside
  locked := ((sameBitmap_setMem hmem).locked client.inside).trans client.locked
  other := client.other

theorem Rel.setMem {mem mem' : Mem} (rel : Rel PML4 m s)
    (hmem : ∀ x, BitmapByte m.pmem x → mem x = m.mem x)
    (htables : ∀ x, InTable PML4 m.taken x → mem' x = mem x) :
    Rel PML4 (m.setMem mem) { s with mem := mem' } where
  pmem := ⟨rel.pmem.fields, fun x hx => (rel.pmem.bytes x hx).trans (hmem x hx).symm⟩
  taken := rel.taken
  tables := htables

/-- The three upper levels of a completed call, one after the other, and the entry set last. -/
theorem allocatePage_ok {vaddr paddr : Nat} (ok : m.allocatePage PML4 vaddr paddr = .ok m') :
    ∃ PDPT m₁ PD m₂ PT m₃,
      getOrCreate "PDPT != nullptr" (entryAddr PML4 (PageIndexer.new vaddr).pml4) m =
        .ok (PDPT, m₁) ∧
      getOrCreate "PD != nullptr" (entryAddr PDPT (PageIndexer.new vaddr).pdpt) m₁ = .ok (PD, m₂) ∧
      getOrCreate "PT != nullptr" (entryAddr PD (PageIndexer.new vaddr).pd) m₂ = .ok (PT, m₃) ∧
      m' = m₃.setMem (setEntry m₃.mem (entryAddr PT (PageIndexer.new vaddr).pt)
        (paddr >>> PAGE_OFFSET_BITS)) := by
  obtain ⟨⟨PDPT, m₁⟩, hpml4, ok⟩ := Except.bind_eq_ok.mp ok
  obtain ⟨⟨PD, m₂⟩, hpdpt, ok⟩ := Except.bind_eq_ok.mp ok
  obtain ⟨⟨PT, m₃⟩, hpd, ok⟩ := Except.bind_eq_ok.mp ok
  exact ⟨PDPT, m₁, PD, m₂, PT, m₃, hpml4, hpdpt, hpd, (Except.ok.inj ok).symm⟩

/-- **A call of `allocate_page` in the one memory** is that call with two memories. -/
theorem allocatePage_refines {vaddr paddr : Nat} (safe : Safe PML4 m) (rel : Rel PML4 m s)
    (sound : ∃ paths, Tables PML4 s.mem s.taken paths)
    (ok : m.allocatePage PML4 vaddr paddr = .ok m') :
    ∃ s', Paging.allocatePage PMem.requestFrame PML4 vaddr paddr s = .ok s' ∧ Safe PML4 m' ∧
      Rel PML4 m' s' ∧ KeepsClients PML4 m m' := by
  obtain ⟨paths, sound⟩ := sound
  obtain ⟨hi₁, hi₂, hi₃⟩ := Paging.upper_indices_lt vaddr
  obtain ⟨PDPT, m₁, PD, m₂, PT, m₃, hpml4, hpdpt, hpd, rfl⟩ := allocatePage_ok ok
  obtain ⟨s₁, paths₁, hpml4', safe₁, rel₁, keeps₁, sound₁, hPDPT⟩ :=
    level_descends safe rel sound sound.root (Nat.zero_lt_succ 2) hi₁ hpml4
  obtain ⟨s₂, paths₂, hpdpt', safe₂, rel₂, keeps₂, sound₂, hPD⟩ :=
    level_descends safe₁ rel₁ sound₁ hPDPT (show 1 < 3 by decide) hi₂ hpdpt
  obtain ⟨s₃, paths₃, hpd', safe₃, rel₃, keeps₃, sound₃, hPT⟩ :=
    level_descends safe₂ rel₂ sound₂ hPD (show 2 < 3 by decide) hi₃ hpd
  have hmem := rel₃.mem_of_path sound₃ hPT
  have hinside : ∀ x, entryAddr PT (PageIndexer.new vaddr).pt ≤ x →
      x < entryAddr PT (PageIndexer.new vaddr).pt + 8 → InTable PML4 m₃.taken x :=
    fun x h1 h2 => inTable_entry hmem (Paging.pt_lt vaddr) h1 h2
  have hkeep : ∀ x, BitmapByte m₃.pmem x →
      setEntry m₃.mem (entryAddr PT (PageIndexer.new vaddr).pt) (paddr >>> PAGE_OFFSET_BITS) x =
        m₃.mem x := by
    intro x hx
    refine Paging.setEntry_of_outside ?_
    by_contra inside
    exact safe₃.apart x hx (hinside x (by omega) (by omega))
  refine ⟨_, ?_, safe₃.setMem hkeep, rel₃.setMem hkeep (Paging.setEntry_congr hinside rel₃.tables),
    ((keeps₁.trans keeps₂).trans keeps₃).trans ?_⟩
  · simp only [Paging.allocatePage, hpml4', hpdpt', hpd', Except.ok_bind]
    rfl
  · refine fun idx client => ⟨client.setMem hkeep, ?_⟩
    rintro x rfl
    exact Paging.setEntry_of_outside (client.entry hmem (Paging.pt_lt vaddr))

/-- A call of the allocator takes no more frames for the kernel. -/
theorem kept_of_pmem {op : PMem.Op} {p : PMem} (ok : m.pmem.step op = .ok p)
    (kept : Kept PML4 { m with pmem := p } idx) : m.Kept PML4 idx := by
  rcases kept with rfl | ⟨x, hx, hbyte | htable⟩
  · exact .inl rfl
  · exact .inr ⟨x, hx, .inl ((PMem.step_bitmapByte ok).mp hbyte)⟩
  · exact .inr ⟨x, hx, .inr htable⟩

/-- It keeps what is kept. -/
theorem Safe.step_pmem {op : PMem.Op} {p : PMem} (safe : Safe PML4 m)
    (adm : Adm PML4 m (.pmem op)) (ok : m.pmem.step op = .ok p) :
    Safe PML4 { m with pmem := p } := by
  have hframes : p.frames = m.pmem.frames := PMem.step_frames ok
  refine ⟨hframes ▸ safe.small, safe.root, safe.fresh, ?_, ?_⟩
  · intro idx hlt kept
    have hlocked := safe.locked idx (hframes ▸ hlt) (kept_of_pmem ok kept)
    have hfrees : idx ∉ op.frees := by
      cases op with
      | freeFrame f =>
        rintro hmem
        rw [List.mem_singleton.mp hmem] at kept
        exact adm.2 (kept_of_pmem ok kept)
      | _ => exact List.not_mem_nil
    show p.locked idx = true
    rw [PMem.step_locked ok, hlocked]
    simp [hfrees]
  · exact fun x hx => safe.apart x ((PMem.step_bitmapByte ok).mp hx)

theorem Adm.inRange {op : PMem.Op} (adm : Adm PML4 m (.pmem op)) : m.pmem.InRange op := by
  cases op with
  | freeFrame idx => exact adm.1
  | _ => exact adm

theorem step_pmem_ok {op : PMem.Op} (ok : step PML4 m (.pmem op) = .ok m') :
    ∃ p, m.pmem.step op = .ok p ∧ m' = { m with pmem := p } := by
  obtain ⟨p, hstep, heq⟩ := Except.bind_eq_ok.mp ok
  exact ⟨p, hstep, (Except.ok.inj heq).symm⟩

/-- What a step leaves to the clients: their frames, until they are freed, and what is in them, until
it is written to. -/
def Leaves (PML4 : Nat) (op : Op) (m m' : PhysMem) : Prop :=
  ∀ idx, Client PML4 m idx → op ≠ .pmem (.freeFrame idx) → Client PML4 m' idx ∧
    ∀ x, x / FRAME_SZ = idx → (∀ v, op ≠ .write x v) → m'.mem x = m.mem x

theorem leaves_pmem {op : PMem.Op} {p : PMem} (adm : Adm PML4 m (.pmem op))
    (ok : m.pmem.step op = .ok p) : Leaves PML4 (.pmem op) m { m with pmem := p } := by
  intro idx client notFreed
  have hfrees : idx ∉ op.frees := by
    cases op with
    | freeFrame f =>
      intro hmem
      exact notFreed (by rw [List.mem_singleton.mp hmem])
    | _ => exact List.not_mem_nil
  refine ⟨⟨(PMem.step_frames ok).symm ▸ client.inside, ?_, fun kept => client.other ?_⟩, ?_⟩
  · show p.locked idx = true
    rw [PMem.step_locked ok, client.locked]
    simp [hfrees]
  · exact kept_of_pmem ok kept
  · rintro x rfl -
    exact PMem.step_outside adm.inRange ok client.bitmap

/-- **One step of the simulation.** -/
theorem step_refines {op : Op} (safe : Safe PML4 m) (rel : Rel PML4 m s)
    (sound : ∃ paths, Tables PML4 s.mem s.taken paths) (adm : Adm PML4 m op)
    (ok : step PML4 m op = .ok m') :
    ∃ s', stepApart PML4 s op = .ok s' ∧ Safe PML4 m' ∧ Rel PML4 m' s' ∧ Leaves PML4 op m m' ∧
      ∃ paths', Tables PML4 s'.mem s'.taken paths' := by
  cases op with
  | allocatePage vaddr paddr =>
    obtain ⟨s', ok', safe', rel', keeps⟩ := allocatePage_refines safe rel sound ok
    obtain ⟨paths, sound⟩ := sound
    obtain ⟨sound', -, -⟩ := Paging.allocatePage_spec sound ok' (rel'.taken ▸ safe'.fresh)
    refine ⟨s', ok', safe', rel', fun idx client _ => ?_, sound'⟩
    exact ⟨(keeps idx client).1, fun x hx _ => (keeps idx client).2 x hx⟩
  | pmem op =>
    obtain ⟨p, hstep, rfl⟩ := step_pmem_ok ok
    obtain ⟨q, hstep', same⟩ := rel.pmem.step adm.inRange hstep
    refine ⟨{ s with pmem := q }, ?_, safe.step_pmem adm hstep, ⟨same, rel.taken, ?_⟩,
      leaves_pmem adm hstep, sound⟩
    · rw [stepApart, hstep']
      rfl
    · intro x hx
      have hx' : ¬ BitmapByte m.pmem x := fun h => safe.apart x h hx
      exact (rel.tables x hx).trans (PMem.step_outside adm.inRange hstep hx').symm
  | write addr v =>
    obtain rfl := Except.ok.inj ok
    have hkeep : ∀ x, BitmapByte m.pmem x → m.mem.write addr v x = m.mem x := by
      intro x hx
      exact Mem.write_of_ne fun heq => adm.1 (heq ▸ hx)
    refine ⟨s, rfl, safe.setMem hkeep, rel.setMem hkeep fun x hx => ?_, ?_, sound⟩
    · have hne : x ≠ addr := fun heq => adm.2 (heq ▸ hx)
      rw [rel.tables x hx, Mem.write_of_ne hne]
    · refine fun idx client _ => ⟨client.setMem hkeep, fun x _ notWritten => ?_⟩
      exact Mem.write_of_ne fun heq => notWritten v (by rw [heq])

end PhysMem

end PrintOS
