import PrintOS.Laws.Memory.AddressSpace
import PrintOS.Laws.Memory.PhysMemRun
import PrintOS.Memory.Paged

/-!
# The kernel behind its page tables

An access through the tables is an access to physical memory where the address is mapped to itself
(`Itself`). A call of `allocate_page` accesses the bitmap, the tables, and the frame of each table
that it makes (`Visible`). If all of this is mapped to itself when the call begins, it is at each
access of the call: a present entry on the way of such an address is never written, since the entry
that a level sets was absent, and the one that is set last is on the way of the new page only. So
the call is the one on physical memory (`allocatePage_eq`), and so is any number of calls
(`allocatePages_eq`).

The constructor loads `cr3` before its last call of `allocate_page`. What the tables map then is
known from `AddressSpace`, and with it whether that call faults and what the test finds
(`new_tests`).
-/

namespace PrintOS

open ByteMemory (Mem Byte)

namespace Paged

open Paging (Fresh Plain Tables entry entryAddr path)
open PhysMem (BitmapByte InTable Rel Safe)

variable {PML4 : Nat} {m m' : Mem} {p : PMem} {i n x : Nat}

/-! ## Accesses -/

/-- The address is mapped to itself. -/
def Itself (PML4 : Nat) (m : Mem) (x : Nat) : Prop := FourLevel.translate m PML4 x = some x

theorem access_itself (h : Itself PML4 m x) : access PML4 m x = .ok x := by
  rw [access, h]

theorem read_mapped {paddr : Nat} (h : FourLevel.translate m PML4 x = some paddr) :
    read PML4 m x = .ok (m paddr) := by
  rw [read, access, h]
  rfl

theorem write_mapped {paddr : Nat} {v : Byte} (h : FourLevel.translate m PML4 x = some paddr) :
    write PML4 m x v = .ok (m.write paddr v) := by
  rw [write, access, h]
  rfl

theorem read_itself (h : Itself PML4 m x) : read PML4 m x = .ok (m x) := read_mapped h

theorem write_itself {v : Byte} (h : Itself PML4 m x) : write PML4 m x v = .ok (m.write x v) :=
  write_mapped h

theorem read64_itself (h : Itself PML4 m x) : read64 PML4 m x = .ok (m.read64 x) := by
  rw [read64, access_itself h]
  rfl

theorem write64_itself {v : Nat} (h : Itself PML4 m x) :
    write64 PML4 m x v = .ok (m.write64 x v) := by
  rw [write64, access_itself h]
  rfl

/-- Each byte that `memset` writes has to be mapped when its turn comes. -/
theorem memset_itself {v : Byte} (h : ∀ k < n, Itself PML4 (m.fill x v k) (x + k)) :
    memset PML4 m x v n = .ok (PrintOS.memset m x v n) := by
  induction n generalizing m x with
  | zero => rfl
  | succ n ih =>
    have hfirst : Itself PML4 m x := h 0 (Nat.succ_pos n)
    rw [memset, write_itself hfirst, Except.ok_bind]
    refine ih fun k hk => ?_
    have hnext := h (k + 1) (Nat.succ_lt_succ hk)
    rwa [← Nat.add_assoc, Nat.add_right_comm] at hnext

/-- The assignments to an entry write nothing but the entry. -/
theorem setEntry_itself {frame : Nat}
    (h : ∀ m' : Mem, (∀ y, y < x ∨ x + 8 ≤ y → m' y = m y) → Itself PML4 m' x) :
    setEntry PML4 m x frame = .ok (Paging.setEntry m x frame) := by
  have hfirst : ∀ v, Itself PML4 (m.write64 x v) x := fun v =>
    h _ fun y hy => Mem.write64_of_outside hy
  have hsecond : ∀ v w, Itself PML4 ((m.write64 x v).write64 x w) x := fun v w =>
    h _ fun y hy => (Mem.write64_of_outside hy).trans (Mem.write64_of_outside hy)
  have hstart := h m fun _ _ => rfl
  simp only [setEntry, read64_itself hstart, write64_itself hstart, Except.ok_bind,
    read64_itself (hfirst _), write64_itself (hfirst _), read64_itself (hsecond _ _),
    write64_itself (hsecond _ _)]
  rfl

/-! ## The allocator -/

theorem get_eq (bitmap : ∀ x, BitmapByte p x → Itself PML4 p.mem x) (hi : i < p.frames) :
    get PML4 p.bitmap p.mem i = .ok (p.bitmap.get p.mem i) := by
  simp only [get, read_itself (bitmap _ (PMem.bitmapByte_byteAddr hi)), Except.ok_bind]
  rfl

theorem lockFrame_eq (bitmap : ∀ x, BitmapByte p x → Itself PML4 p.mem x) (hi : i < p.frames) :
    lockFrame PML4 p i = .ok (p.lockFrame i) := by
  have hbyte := bitmap _ (PMem.bitmapByte_byteAddr hi)
  simp only [lockFrame, get_eq bitmap hi, Except.ok_bind, set, read_itself hbyte,
    write_itself hbyte, PMem.lockFrame]
  split <;> rfl

theorem findFree_eq (bitmap : ∀ x, BitmapByte p x → Itself PML4 p.mem x) {is : List Nat}
    (inside : ∀ i ∈ is, i < p.frames) :
    findFree PML4 p is = .ok (is.find? fun i => !p.bitmap.get p.mem i) := by
  induction is with
  | nil => rfl
  | cons i is ih =>
    rw [findFree, get_eq bitmap (inside i List.mem_cons_self), Except.ok_bind]
    by_cases free : p.bitmap.get p.mem i = false
    · rw [if_pos free, List.find?_cons_of_pos (by rw [free]; rfl)]
      rfl
    · rw [if_neg free, List.find?_cons_of_neg (by rw [Bool.eq_true_of_not_eq_false free]; decide)]
      exact ih fun j hj => inside j (List.mem_cons_of_mem i hj)

/-- A request through the tables is one on physical memory, where the bitmap is mapped to itself. -/
theorem requestFrame_eq (bitmap : ∀ x, BitmapByte p x → Itself PML4 p.mem x) :
    requestFrame PML4 p = p.requestFrame := by
  have hinside : ∀ i ∈ List.range' p.lastFreeIdx (p.frames - p.lastFreeIdx), i < p.frames := by
    intro i hi
    have hrange := List.mem_range'_1.mp hi
    omega
  simp only [requestFrame, PMem.requestFrame, findFree_eq bitmap hinside, Except.ok_bind]
  refine bind_congr fun _ => ?_
  have hfind : (List.range' p.lastFreeIdx (p.frames - p.lastFreeIdx)).find?
      (fun i => !p.bitmap.get p.mem i) = p.findFree := rfl
  rw [hfind]
  cases hsearch : p.findFree with
  | none => rfl
  | some i =>
    simp only [lockFrame_eq bitmap (PMem.findFree_some hsearch).2.2, Except.ok_bind]

/-! ## Walks that are kept -/

variable {taken : List Nat} {paths : Nat → Option (List Nat)}

/-- A walk that finds a page goes through a present entry, and so does every walk in a memory with
that entry. -/
theorem walk_entry (plain : Plain paths m) {t v k paddr : Nat} {π : List Nat}
    (ht : paths t = some π) (hwalk : FourLevel.walk m (k + 1) t v = some paddr) :
    presentField (entry m t (FourLevel.index k v)) ≠ 0 ∧
      ∀ m' : Mem, entry m' t (FourLevel.index k v) = entry m t (FourLevel.index k v) →
        FourLevel.walk m' (k + 1) t v =
          FourLevel.walk m' k (FourLevel.frame (entry m t (FourLevel.index k v))) v := by
  have he : m.read64 (t + 8 * FourLevel.index k v) = entry m t (FourLevel.index k v) := rfl
  have hj : FourLevel.index k v < 512 := Nat.mod_lt _ (by decide)
  by_cases present : presentField (entry m t (FourLevel.index k v)) = 0
  · rw [FourLevel.walk_absent he (Paging.present_absent present)] at hwalk
    cases hwalk
  · obtain ⟨hpresent, hsmall, -, -⟩ :=
      (plain t π _ ht hj).fields (Paging.frameBound_le π) present
    exact ⟨present, fun m' hkept => FourLevel.walk_present hkept hpresent hsmall⟩

/-- A walk goes through present entries, and ends where it did if they are as they were. -/
theorem walk_keeps (tables : Tables PML4 m taken paths) (plain : Plain paths m) {v k paddr : Nat}
    (keep : ∀ t π j, paths t = some π → j < 512 → presentField (entry m t j) ≠ 0 →
      (π ++ [j]) <+: path v → entry m' t j = entry m t j) :
    ∀ {table : Nat} {π : List Nat}, paths table = some π → π.length + (k + 1) = 4 →
      π ++ Paging.indices v (k + 1) = path v → FourLevel.walk m (k + 1) table v = some paddr →
      FourLevel.walk m' (k + 1) table v = some paddr := by
  induction k with
  | zero =>
    intro table π ht hlen hpath hwalk
    obtain ⟨present, hstep⟩ := walk_entry plain ht hwalk
    have hkept : entry m' table (FourLevel.index 0 v) = entry m table (FourLevel.index 0 v) :=
      keep table π _ ht (Nat.mod_lt _ (by decide)) present ⟨[], (List.append_nil _).trans hpath⟩
    rw [hstep m rfl, FourLevel.walk] at hwalk
    rw [hstep m' hkept, FourLevel.walk]
    exact hwalk
  | succ k ih =>
    intro table π ht hlen hpath hwalk
    have hj : FourLevel.index (k + 1) v < 512 := Nat.mod_lt _ (by decide)
    obtain ⟨present, hstep⟩ := walk_entry plain ht hwalk
    have hpath' : (π ++ [FourLevel.index (k + 1) v]) ++ Paging.indices v (k + 1) = path v := by
      rw [List.append_assoc]
      exact hpath
    have hkept : entry m' table (FourLevel.index (k + 1) v) =
        entry m table (FourLevel.index (k + 1) v) :=
      keep table π _ ht hj present ⟨_, hpath'⟩
    -- the entry is an upper one, so the processor and the code take the same table from it
    obtain ⟨-, -, hframe, hlow⟩ := (plain table π _ ht hj).fields (Paging.frameBound_le π) present
    rw [Paging.frameBound, if_pos (by omega)] at hlow
    have hlen' : (π ++ [FourLevel.index (k + 1) v]).length = π.length + 1 := List.length_append
    rw [hstep m rfl, Paging.frame_eq_tableAddr hlow hframe] at hwalk
    rw [hstep m' hkept, Paging.frame_eq_tableAddr hlow hframe]
    exact ih (tables.edge table π _ ht (by omega) hj present) (by omega) hpath' hwalk

/-! ## What is visible -/

/-- What `allocate_page` may access: the bitmap, the tables, and the frames that are free. -/
def Visible (PML4 : Nat) (s : PhysMem) (x : Nat) : Prop :=
  BitmapByte s.pmem x ∨ InTable PML4 s.taken x ∨
    (x / FRAME_SZ < s.pmem.frames ∧ s.pmem.locked (x / FRAME_SZ) = false)

/-- The kernel keeps its memory, its tables have plain entries, and what a call may access is mapped
to itself. -/
structure Ready (PML4 : Nat) (s : PhysMem) (paths : Nat → Option (List Nat)) : Prop where
  safe : Safe PML4 s
  tables : Tables PML4 s.mem s.taken paths
  plain : Plain paths s.mem
  itself : ∀ x, Visible PML4 s x → Itself PML4 s.mem x

section Levels

variable {s s' : PhysMem} {t child : Nat} {π : List Nat} {text : String}

theorem Ready.mem_of_path (ready : Ready PML4 s paths) (ht : paths t = some π) :
    t ∈ PML4 :: s.taken :=
  (Rel.refl PML4 s).mem_of_path ready.tables ht

/-- **An address that is visible stays mapped to itself** while nothing is written to the tables but
one entry, if that was absent or is not on the way of the address. -/
theorem Ready.itself_off (ready : Ready PML4 s paths) (ht : paths t = some π) {j : Nat}
    (hj : j < 512)
    (agrees : ∀ y, InTable PML4 s.taken y → y < entryAddr t j ∨ entryAddr t j + 8 ≤ y →
      m y = s.mem y)
    (off : presentField (entry s.mem t j) = 0 ∨ ¬ (π ++ [j]) <+: path x)
    (visible : Visible PML4 s x) : Itself PML4 m x := by
  refine walk_keeps ready.tables ready.plain (fun u ρ k hu hk present hway => ?_)
    ready.tables.root rfl (Paging.path_eq_indices x).symm (ready.itself x visible)
  have hother : ¬ (u = t ∧ k = j) := by
    rintro ⟨rfl, rfl⟩
    obtain rfl := Option.some.inj (ht.symm.trans hu)
    exact off.elim present fun h => h hway
  have hual := ready.tables.aligned u ρ hu
  have htal := ready.tables.aligned t π ht
  refine Mem.read64_congr fun y h1 h2 =>
    agrees y (PhysMem.inTable_entry (ready.mem_of_path hu) hk h1 h2) ?_
  simp only [entryAddr, PAGE_SZ, FRAME_SZ] at h1 h2 hual htal ⊢
  omega

theorem visible_entry {j : Nat} (ht : t ∈ PML4 :: s.taken) (hj : j < 512) :
    Visible PML4 s (entryAddr t j) :=
  .inr (.inl (PhysMem.inTable_entry ht hj (Nat.le_refl _) (Nat.lt_add_of_pos_right (by decide))))

/-- What the frame of a new table is to the memory before: it is visible, in no table, and its
request wrote to no table. -/
theorem Ready.newTable (ready : Ready PML4 s paths) (hreq : s.pmem.requestFrame = .ok (child, p))
    (hnull : child ≠ 0) : (∀ y, child ≤ y → y < child + PAGE_SZ → Visible PML4 s y) ∧
      (∀ y, InTable PML4 s.taken y → y < child ∨ child + PAGE_SZ ≤ y) ∧
      ∀ y, InTable PML4 s.taken y → p.mem y = s.mem y := by
  obtain ⟨-, ⟨-, rfl, -⟩ | ⟨idx, hsome, rfl, rfl⟩⟩ := PMem.requestFrame_ok hreq
  · exact absurd rfl hnull
  obtain ⟨free, -, hlt⟩ := PMem.findFree_some hsome
  have new := ready.safe.newTable hlt free
  refine ⟨fun y h1 h2 => .inr (.inr ?_), new.tables, fun y hy => ?_⟩
  · have hframe : y / FRAME_SZ = idx := by
      have haddr := new.address
      simp only [PAGE_SZ, FRAME_SZ] at haddr h2 ⊢
      omega
    rw [hframe]
    exact ⟨hlt, free⟩
  · exact PMem.lockFrame_outside hlt fun hbyte => ready.safe.apart y hbyte hy

/-- **One upper level through the tables** is that level on physical memory. -/
theorem getOrCreate_eq (ready : Ready PML4 s paths) (ht : paths t = some π) (hi : i < 512) :
    getOrCreate PML4 text (entryAddr t i) s = PhysMem.getOrCreate text (entryAddr t i) s := by
  have hentry := visible_entry (ready.mem_of_path ht) hi
  have hrequest : requestFrame PML4 s.pmem = s.pmem.requestFrame :=
    requestFrame_eq fun x hx => ready.itself x (.inl hx)
  rw [getOrCreate, read64_itself (ready.itself _ hentry), Except.ok_bind, PhysMem.getOrCreate]
  by_cases absent : presentField (s.mem.read64 (entryAddr t i)) = 0
  · rw [if_pos absent, if_pos absent, hrequest]
    refine Except.bind_congr_ok fun answer hreq => ?_
    obtain ⟨child, p⟩ := answer
    refine Except.bind_congr_ok fun _ hassert => ?_
    obtain ⟨hvisible, hout, hsame⟩ := ready.newTable hreq (kassert_eq_ok.mp hassert)
    have hmemset : memset PML4 p.mem child 0 PAGE_SZ =
        .ok (PrintOS.memset p.mem child 0 PAGE_SZ) := by
      refine memset_itself fun k hk => ready.itself_off ht hi (fun y hy _ => ?_) (.inl absent)
        (hvisible _ (Nat.le_add_right _ _) (Nat.add_lt_add_left hk child))
      have := hout y hy
      rw [Mem.fill_of_outside (by omega), hsame y hy]
    have hset : setEntry PML4 (PrintOS.memset p.mem child 0 PAGE_SZ) (entryAddr t i)
        (child >>> PAGE_OFFSET_BITS) = .ok (Paging.setEntry
          (PrintOS.memset p.mem child 0 PAGE_SZ) (entryAddr t i) (child >>> PAGE_OFFSET_BITS)) := by
      refine setEntry_itself fun m' hm' => ready.itself_off ht hi (fun y hy hoff => ?_)
        (.inl absent) hentry
      rw [hm' y hoff, PrintOS.memset, Mem.fill_of_outside (hout y hy), hsame y hy]
    simp only [hmemset, hset, Except.ok_bind]
  · rw [if_neg absent, if_neg absent]

/-- The tables of a state with two memories are those of the one memory. -/
theorem plainTables_of_rel {u : Paging.State PMem} (rel : Rel PML4 s u)
    (tables : Tables PML4 u.mem u.taken paths) (plain : Plain paths u.mem) :
    Tables PML4 s.mem s.taken paths ∧ Plain paths s.mem := by
  have hentry : ∀ t π j, paths t = some π → j < 512 → entry s.mem t j = entry u.mem t j :=
    fun t π j ht hj => (rel.entry_eq (rel.mem_of_path tables ht) hj).symm
  have htables := tables.congr hentry
  rw [rel.taken] at htables
  refine ⟨htables, fun t π j ht hj => ?_⟩
  rw [hentry t π j ht hj]
  exact plain t π j ht hj

/-- What a level that makes a table leaves: it has locked the table's frame, and wrote to no other
table than to the entry. -/
theorem Ready.created (ready : Ready PML4 s paths)
    (absent : presentField (s.mem.read64 (entryAddr t i)) = 0)
    (ok : PhysMem.getOrCreate text (entryAddr t i) s = .ok (child, s')) :
    ∃ p, s.pmem.step .requestFrame = .ok p ∧ s'.taken = s.taken ++ [child] ∧
      s'.pmem = { p with mem := s'.mem } ∧
      (∀ y, child ≤ y → y < child + PAGE_SZ → Visible PML4 s y) ∧
      ∀ y, InTable PML4 s.taken y → y < entryAddr t i ∨ entryAddr t i + 8 ≤ y →
        s'.mem y = s.mem y := by
  rcases PhysMem.getOrCreate_ok ok with ⟨present, -⟩ | ⟨-, hnull, p, hreq, rfl⟩
  · exact absurd absent present
  obtain ⟨hvisible, hout, hsame⟩ := ready.newTable hreq hnull
  refine ⟨p, ?_, rfl, rfl, hvisible, fun y hy hoff => ?_⟩
  · rw [PMem.step, hreq]
    rfl
  · exact (Paging.setEntry_of_outside hoff).trans
      ((Mem.fill_of_outside (hout y hy)).trans (hsame y hy))

/-- A level makes nothing visible that was not. -/
theorem visible_of_created (step : s.pmem.step .requestFrame = .ok p)
    (taken : s'.taken = s.taken ++ [child]) (fields : s'.pmem = { p with mem := s'.mem })
    (bits : ∀ j < p.frames, s'.pmem.locked j = p.locked j)
    (inside : ∀ y, child ≤ y → y < child + PAGE_SZ → Visible PML4 s y)
    (visible : Visible PML4 s' x) : Visible PML4 s x := by
  have hframes : s'.pmem.frames = p.frames := by rw [fields]
  have hbitmap : s'.pmem.bitmap = p.bitmap := by rw [fields]
  rcases visible with hbyte | htable | ⟨hlt, free⟩
  · rw [BitmapByte, hframes, hbitmap] at hbyte
    exact .inl ((PMem.step_bitmapByte step).mp hbyte)
  · rw [taken] at htable
    rcases PhysMem.inTable_append.mp htable with htable | ⟨h1, h2⟩
    · exact .inr (.inl htable)
    · exact inside x h1 h2
  · rw [hframes] at hlt
    simp only [bits _ hlt, PMem.step_locked step, PMem.Op.frees, List.not_mem_nil, decide_false,
      Bool.not_false, Bool.and_true, Bool.or_eq_false_iff] at free
    exact .inr (.inr ⟨Nat.lt_of_lt_of_eq hlt (PMem.step_frames step), free.1⟩)

/-- A level leaves the kernel ready. -/
theorem Ready.getOrCreate (ready : Ready PML4 s paths) (ht : paths t = some π)
    (hπ : π.length < 3) (hi : i < 512)
    (ok : PhysMem.getOrCreate text (entryAddr t i) s = .ok (child, s')) :
    (∃ paths', Ready PML4 s' paths' ∧ paths' child = some (π ++ [i])) ∧
      ∀ x, Visible PML4 s' x → Visible PML4 s x := by
  have rel : Rel PML4 s s.twoMemories := .refl PML4 s
  have sound : Tables PML4 s.twoMemories.mem s.twoMemories.taken paths := ready.tables
  have hplain : Plain paths s.twoMemories.mem := ready.plain
  obtain ⟨u, ok', safe', rel', -⟩ := PhysMem.level ready.safe rel sound ht hi ok
  obtain ⟨paths', tables, plain, hchild⟩ := Paging.getOrCreate_plain sound hplain ht hπ hi ok'
    (rel'.taken ▸ safe'.fresh)
  obtain ⟨tables', plain'⟩ := plainTables_of_rel rel' tables plain
  by_cases absent : presentField (s.mem.read64 (entryAddr t i)) = 0
  · obtain ⟨p, step, taken, fields, inside, same⟩ := ready.created absent ok
    have bits : ∀ j < p.frames, s'.pmem.locked j = p.locked j := by
      intro j hj
      have hframes : s'.pmem.frames = p.frames := by rw [fields]
      have hpmem : u.pmem = p := by
        rcases Paging.getOrCreate_ok ok' with ⟨present, -⟩ | ⟨-, -, q, hreq, rfl⟩
        · exact absurd absent present
        · obtain ⟨ptr, hreq'⟩ := PMem.step_requestFrame step
          exact (Prod.mk.inj (Except.ok.inj (hreq.symm.trans hreq'))).2
      rw [← rel'.pmem.locked (hframes.symm ▸ hj), hpmem]
    have visible : ∀ x, Visible PML4 s' x → Visible PML4 s x := fun x =>
      visible_of_created step taken fields bits inside
    refine ⟨⟨paths', ⟨safe', tables', plain', fun x hx => ?_⟩, hchild⟩, visible⟩
    exact ready.itself_off ht hi same (.inl absent) (visible x hx)
  · rcases PhysMem.getOrCreate_ok ok with ⟨-, -, rfl⟩ | ⟨h, -⟩
    · exact ⟨⟨paths', ⟨safe', tables', plain', ready.itself⟩, hchild⟩, fun x hx => hx⟩
    · exact absurd h absent

/-! ## A call -/

variable {vaddr paddr : Nat}

/-- The entry that is set last, of a page that is not visible. -/
theorem Ready.setEntry_eq {frame : Nat} (ready : Ready PML4 s paths) (ht : paths t = some π)
    (hi : i < 512) (away : ∀ x, Visible PML4 s x → ¬ (π ++ [i]) <+: path x) :
    setEntry PML4 s.mem (entryAddr t i) frame =
      .ok (Paging.setEntry s.mem (entryAddr t i) frame) := by
  have hentry := visible_entry (ready.mem_of_path ht) hi
  exact setEntry_itself fun m' hm' => ready.itself_off ht hi (fun y _ hoff => hm' y hoff)
    (.inr (away _ hentry)) hentry

theorem Ready.setEntry {frame : Nat} (ready : Ready PML4 s paths) (ht : paths t = some π)
    (hπ : π.length = 3) (hi : i < 512) (away : ∀ x, Visible PML4 s x → ¬ (π ++ [i]) <+: path x) :
    Ready PML4 (s.setMem (Paging.setEntry s.mem (entryAddr t i) frame)) paths ∧
      ∀ x, Visible PML4 (s.setMem (Paging.setEntry s.mem (entryAddr t i) frame)) x →
        Visible PML4 s x := by
  have hmem := ready.mem_of_path ht
  have same : ∀ y, y < entryAddr t i ∨ entryAddr t i + 8 ≤ y →
      Paging.setEntry s.mem (entryAddr t i) frame y = s.mem y :=
    fun y hy => Paging.setEntry_of_outside hy
  have only : Paging.OnlyEntry paths s.mem (Paging.setEntry s.mem (entryAddr t i) frame) t i :=
    ready.tables.onlyEntry_setEntry ht hi
  have hset : entry (Paging.setEntry s.mem (entryAddr t i) frame) t i =
      2 ^ 12 * (frame % 2 ^ 32) + 3 := by
    rw [entry, Paging.read64_setEntry]
    exact (ready.plain _ _ _ ht hi).set (Paging.frameBound_le _) _
  generalize Paging.setEntry s.mem (entryAddr t i) frame = mem at same only hset ⊢
  have hbitmap : ∀ x, BitmapByte s.pmem x → mem x = s.mem x := by
    intro x hx
    refine same x ?_
    by_contra inside
    exact ready.safe.apart x hx (PhysMem.inTable_entry hmem hi (by omega) (by omega))
  have visible : ∀ x, Visible PML4 (s.setMem mem) x → Visible PML4 s x := by
    rintro x (hbyte | htable | ⟨hlt, free⟩)
    · exact .inl hbyte
    · exact .inr (.inl htable)
    · have hlocked : (s.setMem mem).pmem.locked (x / FRAME_SZ) = s.pmem.locked (x / FRAME_SZ) :=
        (PhysMem.sameBitmap_setMem hbitmap).locked hlt
      exact .inr (.inr ⟨hlt, hlocked ▸ free⟩)
  refine ⟨⟨ready.safe.setMem hbitmap, ready.tables.of_page ht hπ only,
    ready.plain.of_only ht only hset ?_, fun x hx => ?_⟩, visible⟩
  · rw [Paging.frameBound, if_neg (by omega)]
    exact Nat.mod_lt _ (by decide)
  · exact ready.itself_off ht hi (fun y _ hoff => same y hoff) (.inr (away x (visible x hx)))
      (visible x hx)

/-- Only an address on the page itself is on the way of the page's entry. -/
theorem off_way (away : ∀ x, Visible PML4 s x → path x ≠ path vaddr)
    (visible : ∀ x, Visible PML4 s' x → Visible PML4 s x) (x : Nat) (hx : Visible PML4 s' x) :
    ¬ path vaddr <+: path x :=
  fun h => away x (visible x hx) (h.eq_of_length rfl).symm

/-- **A call of `allocate_page` through the tables** is the call on physical memory, for a page that
is not visible. -/
theorem allocatePage_eq (ready : Ready PML4 s paths)
    (away : ∀ x, Visible PML4 s x → path x ≠ path vaddr) :
    allocatePage PML4 vaddr paddr s = s.allocatePage PML4 vaddr paddr := by
  obtain ⟨hi₁, hi₂, hi₃⟩ := Paging.upper_indices_lt vaddr
  rw [allocatePage, getOrCreate_eq ready ready.tables.root hi₁]
  refine Except.bind_congr_ok fun level hpml4 => ?_
  obtain ⟨PDPT, s₁⟩ := level
  obtain ⟨⟨paths₁, ready₁, hPDPT⟩, visible₁⟩ :=
    ready.getOrCreate ready.tables.root (Nat.zero_lt_succ 2) hi₁ hpml4
  dsimp only
  rw [getOrCreate_eq ready₁ hPDPT hi₂]
  refine Except.bind_congr_ok fun level hpdpt => ?_
  obtain ⟨PD, s₂⟩ := level
  obtain ⟨⟨paths₂, ready₂, hPD⟩, visible₂⟩ :=
    ready₁.getOrCreate hPDPT (show 1 < 3 by decide) hi₂ hpdpt
  dsimp only
  rw [getOrCreate_eq ready₂ hPD hi₃]
  refine Except.bind_congr_ok fun level hpd => ?_
  obtain ⟨PT, s₃⟩ := level
  obtain ⟨⟨paths₃, ready₃, hPT⟩, visible₃⟩ :=
    ready₂.getOrCreate hPD (show 2 < 3 by decide) hi₃ hpd
  dsimp only
  rw [ready₃.setEntry_eq hPT (Paging.pt_lt vaddr)
    (off_way away fun x hx => visible₁ x (visible₂ x (visible₃ x hx)))]
  rfl

/-- It leaves the kernel ready for the next. -/
theorem Ready.allocatePage (ready : Ready PML4 s paths)
    (away : ∀ x, Visible PML4 s x → path x ≠ path vaddr)
    (ok : s.allocatePage PML4 vaddr paddr = .ok s') :
    (∃ paths', Ready PML4 s' paths') ∧ ∀ x, Visible PML4 s' x → Visible PML4 s x := by
  obtain ⟨hi₁, hi₂, hi₃⟩ := Paging.upper_indices_lt vaddr
  obtain ⟨PDPT, s₁, PD, s₂, PT, s₃, hpml4, hpdpt, hpd, rfl⟩ := PhysMem.allocatePage_ok ok
  obtain ⟨⟨paths₁, ready₁, hPDPT⟩, visible₁⟩ :=
    ready.getOrCreate ready.tables.root (Nat.zero_lt_succ 2) hi₁ hpml4
  obtain ⟨⟨paths₂, ready₂, hPD⟩, visible₂⟩ :=
    ready₁.getOrCreate hPDPT (show 1 < 3 by decide) hi₂ hpdpt
  obtain ⟨⟨paths₃, ready₃, hPT⟩, visible₃⟩ :=
    ready₂.getOrCreate hPD (show 2 < 3 by decide) hi₃ hpd
  have visible : ∀ x, Visible PML4 s₃ x → Visible PML4 s x :=
    fun x hx => visible₁ x (visible₂ x (visible₃ x hx))
  obtain ⟨ready', visible'⟩ := @Ready.setEntry _ _ _ _ _ _ (paddr >>> PAGE_OFFSET_BITS) ready₃
    hPT rfl (Paging.pt_lt vaddr) (off_way away visible)
  exact ⟨⟨paths₃, ready'⟩, fun x hx => visible x (visible' x hx)⟩

/-- **Any calls of `allocate_page` through the tables** are those calls on physical memory, and end
or stop as they do, where what the first one may access is mapped to itself and no call is for a
page of it. -/
theorem allocatePages_eq (ready : Ready PML4 s paths) (calls : List (Nat × Nat))
    (away : ∀ call ∈ calls, ∀ x, Visible PML4 s x → path x ≠ path call.1) :
    calls.foldlM (fun s call => allocatePage PML4 call.1 call.2 s) s =
      calls.foldlM (fun s call => s.allocatePage PML4 call.1 call.2) s := by
  induction calls generalizing s paths with
  | nil => rw [List.foldlM_nil, List.foldlM_nil]
  | cons call calls ih =>
    have hfirst := away call List.mem_cons_self
    rw [List.foldlM_cons, List.foldlM_cons, allocatePage_eq ready hfirst]
    refine Except.bind_congr_ok fun s' ok => ?_
    obtain ⟨⟨paths', ready'⟩, visible⟩ := ready.allocatePage hfirst ok
    exact ih ready' fun later hlater x hx =>
      away later (List.mem_cons_of_mem _ hlater) x (visible x hx)

end Levels

/-! ## The run of the constructor -/

variable {s s' : PhysMem} {kernel : KernelData} {calls : List (Nat × Nat)}

/-- The calls of `allocate_page` as steps of the kernel. -/
def pages (calls : List (Nat × Nat)) : List PhysMem.Op :=
  calls.map fun call => .allocatePage call.1 call.2

theorem run_identityFrom {turns addr : Nat} (ok : PhysMem.identityFrom PML4 turns addr s = .ok s') :
    Run (PhysMem.step PML4) (fun _ _ => True) s (pages (Paging.identityCalls turns addr)) s' := by
  induction turns generalizing addr s with
  | zero =>
    cases ok
    exact .nil _
  | succ turns ih =>
    obtain ⟨u, hcall, hrest⟩ := Except.bind_eq_ok.mp ok
    exact .cons trivial hcall (ih hrest)

/-- `init` is one run of the kernel, with a call for each page of the ranges. -/
theorem run_init (ok : s.init PML4 kernel = .ok s') :
    Run (PhysMem.step PML4) (fun _ _ => True) s
      (pages ((Paging.ranges kernel).flatMap Paging.rangeCalls)) s' := by
  unfold PhysMem.init at ok
  generalize Paging.ranges kernel = ranges at ok ⊢
  induction ranges generalizing s with
  | nil =>
    cases ok
    exact .nil _
  | cons range ranges ih =>
    rw [List.foldlM_cons] at ok
    obtain ⟨u, hrange, hrest⟩ := Except.bind_eq_ok.mp ok
    rw [List.flatMap_cons, pages, List.map_append]
    exact (run_identityFrom hrange).append (ih hrest)

/-- Where the tables have a memory of their own it is the run of the tables. -/
theorem pages_of_runApart {u t : Paging.State PMem}
    (run : Run (PhysMem.stepApart PML4) PhysMem.AdmApart u (pages calls) t) :
    Run (Paging.step PMem.requestFrame PML4) (fun _ _ => True) u calls t := by
  induction calls generalizing u with
  | nil =>
    cases run
    exact .nil _
  | cons call calls ih =>
    cases run with
    | cons _ ok rest => exact .cons trivial ok (ih rest)

/-- No table is made in frame 0. -/
theorem nonzero_getOrCreate {text : String} {addr child : Nat} (nonzero : 0 ∉ s.taken)
    (ok : PhysMem.getOrCreate text addr s = .ok (child, s')) : 0 ∉ s'.taken := by
  rcases PhysMem.getOrCreate_ok ok with ⟨-, -, rfl⟩ | ⟨-, hnull, p, -, rfl⟩
  · exact nonzero
  · intro hmem
    rcases List.mem_append.mp hmem with hmem | hmem
    · exact nonzero hmem
    · exact hnull (List.mem_singleton.mp hmem).symm

theorem nonzero_allocatePage {vaddr paddr : Nat} (nonzero : 0 ∉ s.taken)
    (ok : s.allocatePage PML4 vaddr paddr = .ok s') : 0 ∉ s'.taken := by
  obtain ⟨PDPT, s₁, PD, s₂, PT, s₃, hpml4, hpdpt, hpd, rfl⟩ := PhysMem.allocatePage_ok ok
  have nonzero₃ : 0 ∉ s₃.taken :=
    nonzero_getOrCreate (nonzero_getOrCreate (nonzero_getOrCreate nonzero hpml4) hpdpt) hpd
  exact nonzero₃

theorem nonzero_of_run {Adm : PhysMem → PhysMem.Op → Prop} (nonzero : 0 ∉ s.taken)
    (run : Run (PhysMem.step PML4) Adm s (pages calls) s') : 0 ∉ s'.taken := by
  induction calls generalizing s with
  | nil =>
    cases run
    exact nonzero
  | cons call calls ih =>
    cases run with
    | cons _ ok rest => exact ih (nonzero_allocatePage nonzero ok) rest

/-! ## What `init` leaves -/

/-- Below 2^44 the pages of the ranges are mapped to themselves and nothing else is, on the machine
that has the tables and the bitmap in one memory. -/
theorem init_space (begun : PhysMem.Begun PML4 s)
    (low : ∀ r ∈ Paging.ranges kernel, r.1 + r.2 < 2 ^ 44) (ok : s.init PML4 kernel = .ok s') :
    (∃ paths, Safe PML4 s' ∧ Tables PML4 s'.mem s'.taken paths ∧ Plain paths s'.mem) ∧
      ∀ v < 2 ^ 48, ∀ p, FourLevel.translate s'.mem PML4 v = some p ↔
        Paging.Reached kernel v ∧ p = v := by
  have adm : ∀ m : PhysMem, ∀ op ∈ pages ((Paging.ranges kernel).flatMap Paging.rangeCalls),
      PhysMem.Adm PML4 m op := by
    intro m op hop
    obtain ⟨call, hcall, rfl⟩ := List.mem_map.mp hop
    obtain ⟨hself, hlow, -⟩ := Paging.mem_rangeCalls low hcall
    exact hself.trans_lt hlow
  have run := (run_init ok).mono_mem fun m op hop _ => adm m op hop
  obtain ⟨u, runApart, safe, rel, -⟩ :=
    PhysMem.run_refines begun.safe (.refl PML4 s) begun.sound run
  have runTables := pages_of_runApart runApart
  rw [begun.taken] at runTables
  have fresh : Fresh PML4 u.taken := rel.taken ▸ safe.fresh
  obtain ⟨paths, tables, plain⟩ :=
    (Paging.plainTables_zero begun.root begun.zero).of_run runTables fresh
  obtain ⟨tables', plain'⟩ := plainTables_of_rel rel tables plain
  refine ⟨⟨paths, safe, tables', plain'⟩, fun v hv p => ?_⟩
  rw [Paging.translate_eq tables' plain', rel.lookup_eq tables, ← Paging.translate_eq tables plain]
  exact Paging.translate_ranges begun.root begun.zero low runTables fresh hv p

/-- The kernel is ready for the tables that it has made, if they map what a call may access. -/
theorem ready_of_init (begun : PhysMem.Begun PML4 s)
    (low : ∀ r ∈ Paging.ranges kernel, r.1 + r.2 < 2 ^ 44) (ok : s.init PML4 kernel = .ok s')
    (mapped : ∀ x, Visible PML4 s' x → Paging.Reached kernel x) :
    ∃ paths, Ready PML4 s' paths := by
  obtain ⟨⟨paths, safe, tables, plain⟩, space⟩ := init_space begun low ok
  refine ⟨paths, safe, tables, plain, fun x hx => ?_⟩
  have reached := mapped x hx
  exact (space x (Paging.reached_lt low reached) x).mpr ⟨reached, rfl⟩

/-- A page that was not reached has nothing that a call may access. -/
theorem away_of_missed (low : ∀ r ∈ Paging.ranges kernel, r.1 + r.2 < 2 ^ 44)
    (mapped : ∀ x, Visible PML4 s x → Paging.Reached kernel x) {v : Nat} (hv : v < 2 ^ 48)
    (missed : ¬ Paging.Reached kernel v) (x : Nat) (hx : Visible PML4 s x) : path x ≠ path v := by
  intro hpath
  have hpage := (Paging.path_eq_iff (Paging.reached_lt low (mapped x hx)) hv).mp hpath
  exact missed ((Paging.reached_congr hpage).mp (mapped x hx))

/-- Where a page is mapped to after the call for it. -/
theorem translate_allocated {vaddr paddr : Nat} (safe : Safe PML4 s)
    (tables : Tables PML4 s.mem s.taken paths) (plain : Plain paths s.mem)
    (ok : s.allocatePage PML4 vaddr paddr = .ok s') :
    FourLevel.translate s'.mem PML4 vaddr =
      some ((paddr >>> PAGE_OFFSET_BITS) % 2 ^ 32 * 2 ^ 12 + vaddr % 2 ^ 12) := by
  have rel : Rel PML4 s s.twoMemories := .refl PML4 s
  have sound : Tables PML4 s.twoMemories.mem s.twoMemories.taken paths := tables
  have hplain : Plain paths s.twoMemories.mem := plain
  obtain ⟨u, ok', safe', rel', -⟩ := PhysMem.allocatePage_refines safe rel ⟨paths, sound⟩ ok
  have fresh : Fresh PML4 u.taken := rel'.taken ▸ safe'.fresh
  obtain ⟨-, ⟨e, he, maps⟩, -⟩ := Paging.allocatePage_spec sound ok' fresh
  have plainTables : Paging.PlainTables PML4 s.twoMemories := ⟨paths, sound, hplain⟩
  obtain ⟨paths', tables', plain'⟩ := plainTables.allocatePage ok' fresh
  obtain ⟨tables₂, plain₂⟩ := plainTables_of_rel rel' tables' plain'
  rw [Paging.translate_eq tables₂ plain₂, rel'.lookup_eq tables', he, Option.map_some, maps.frame]

/-! ## The test -/

/-- Frame 0 has no entry, so what is written there changes no walk. -/
theorem translate_write {v b p : Nat} {byte : Byte} (hroot : PML4 ≠ 0) (nonzero : 0 ∉ s.taken)
    (tables : Tables PML4 s.mem s.taken paths) (plain : Plain paths s.mem) (hb : b < FRAME_SZ)
    (h : FourLevel.translate s.mem PML4 v = some p) :
    FourLevel.translate (s.mem.write b byte) PML4 v = some p := by
  refine walk_keeps tables plain (fun t π j ht hj _ _ => ?_) tables.root rfl
    (Paging.path_eq_indices v).symm h
  have haligned := tables.aligned t π ht
  have hne : t ≠ 0 := by
    rcases tables.owned t π ht with rfl | hmem
    · exact hroot
    · exact fun hzero => nonzero (hzero ▸ hmem)
  refine Mem.read64_write_disjoint (.inr ?_)
  simp only [entryAddr, PAGE_SZ, FRAME_SZ] at haligned hb ⊢
  omega

/-- **The constructor's last call and its test.** Let the ranges be below 2^44, and the kernel's own
frames be locked before the first page is mapped. If no loop of `__identity_paging` has come to the
PML4, the call of `allocate_page` after `cr3` is loaded is a page fault at its first access. If the
loops have come to the bitmap, the tables and the free frames, and not to `test_addr`, the call is
the one on physical memory, the test writes to byte 0x999 of frame 0, reads the byte back, and does
not call `kpanic`. -/
theorem new_tests {u : PhysMem} (hroot : PML4 ≠ 0) (hcr3 : PML4 < 2 ^ 48)
    (begun : PhysMem.Begun PML4 (s.clear PML4))
    (low : ∀ r ∈ Paging.ranges kernel, r.1 + r.2 < 2 ^ 44)
    (ok : (s.clear PML4).init PML4 kernel = .ok u) :
    (¬ Paging.Reached kernel PML4 → new PML4 kernel s = .error .pageFault) ∧
      ((∀ x, Visible PML4 u x → Paging.Reached kernel x) → ¬ Paging.Reached kernel testAddr →
        new PML4 kernel s = (fun t => (false, t.setMem (t.mem.write 0x999 123))) <$>
          u.allocatePage PML4 testAddr 0) := by
  rw [new, ok, Except.ok_bind]
  constructor
  · intro missed
    have hentry : entryAddr PML4 (PageIndexer.new testAddr).pml4 / PAGE_SZ = PML4 / PAGE_SZ := by
      have haligned := begun.root
      have hindex : (PageIndexer.new testAddr).pml4 < 512 := by decide
      simp only [entryAddr, PAGE_SZ, FRAME_SZ] at haligned ⊢
      omega
    have hfault : FourLevel.translate u.mem PML4
        (entryAddr PML4 (PageIndexer.new testAddr).pml4) = none := by
      rw [Option.eq_none_iff_forall_ne_some]
      intro p hp
      have hlow : entryAddr PML4 (PageIndexer.new testAddr).pml4 < 2 ^ 48 := by
        simp only [PAGE_SZ, FRAME_SZ] at hentry
        omega
      obtain ⟨reached, -⟩ := ((init_space begun low ok).2 _ hlow p).mp hp
      exact missed ((Paging.reached_congr hentry).mp reached)
    rw [allocatePage, getOrCreate, read64, access, hfault]
    rfl
  · intro mapped missed
    obtain ⟨paths, ready⟩ := ready_of_init begun low ok mapped
    have away := away_of_missed low mapped (by decide) missed
    rw [allocatePage_eq ready away, map_eq_pure_bind]
    refine Except.bind_congr_ok fun t hcall => ?_
    have nonzero : 0 ∉ u.taken :=
      nonzero_of_run (begun.taken ▸ List.not_mem_nil) (run_init ok)
    obtain ⟨⟨paths', ready'⟩, -⟩ := ready.allocatePage away hcall
    have hfirst : FourLevel.translate t.mem PML4 testAddr = some 0x999 :=
      translate_allocated ready.safe ready.tables ready.plain hcall
    have hsecond : FourLevel.translate (t.mem.write 0x999 123) PML4 testAddr = some 0x999 :=
      translate_write hroot (nonzero_allocatePage nonzero hcall) ready'.tables ready'.plain
        (by decide) hfirst
    rw [write_mapped hfirst, Except.ok_bind, read_mapped hsecond, Except.ok_bind, Mem.write_self]
    rfl

/-! ## The small machine -/

theorem begun_setMem {mem : Mem} (begun : PhysMem.Begun PML4 s)
    (bitmap : ∀ x, BitmapByte s.pmem x → mem x = s.mem x)
    (zero : ∀ x, PML4 ≤ x → x < PML4 + PAGE_SZ → mem x = 0) :
    PhysMem.Begun PML4 (s.setMem mem) := by
  refine ⟨begun.small, begun.root, begun.taken, zero, fun idx hlt kept => ?_, begun.bitmap⟩
  exact ((PhysMem.sameBitmap_setMem bitmap).locked hlt).trans (begun.locked idx hlt kept)

theorem begun_clear (begun : PhysMem.Begun PML4 s) : PhysMem.Begun PML4 (s.clear PML4) := by
  refine begun_setMem begun (fun x hx => ?_) Paging.memset_cleared
  have hout : x < PML4 ∨ PML4 + 8 * 512 ≤ x := begun.bitmap x hx
  exact Mem.fill_of_outside hout

/-- What the ranges are on the small machine: all its frames, the framebuffer and the registers. -/
def roomyKernel : KernelData := { Paging.machine 0xfed00000 0x1f00 with mmap := PhysMem.roomyMap }

/-- Its memory is mapped once `init` has ended, and there are frames for the tables of the test's
page and the next. -/
theorem roomy_init : ∃ u t w, (PhysMem.roomy.clear 0xe000).init 0xe000 roomyKernel = .ok u ∧
    (∀ x, Visible 0xe000 u x → Paging.Reached roomyKernel x) ∧
    u.allocatePage 0xe000 testAddr 0 = .ok t ∧
    t.allocatePage 0xe000 (testAddr + PAGE_SZ) 0x6000 = .ok w := by
  obtain ⟨_, ok, hfacts⟩ : ∃ r : PhysMem × PhysMem × PhysMem, (do
      let u ← (PhysMem.roomy.clear 0xe000).init 0xe000 roomyKernel
      let t ← u.allocatePage 0xe000 testAddr 0
      let w ← t.allocatePage 0xe000 (testAddr + PAGE_SZ) 0x6000
      return (u, t, w)) = .ok r ∧
        (r.1.taken, r.1.pmem.frames, r.1.pmem.bitmap,
          (List.range 17).filter fun i => !r.1.pmem.locked i) =
          ([0x2000, 0x3000, 0x4000, 0x5000, 0x6000, 0x7000, 0x8000, 0x9000], 17,
            ⟨0x1000, 3, 0xf108⟩, [10, 11, 12, 13]) := by
    apply Except.ok_of_toOption_map
    simp only [PhysMem.clear, PhysMem.init, PhysMem.identityFrom, PhysMem.allocatePage,
      PhysMem.getOrCreate, Paging.memset_eq]
    decide +kernel
  obtain ⟨u, hinit, ok⟩ := Except.bind_eq_ok.mp ok
  obtain ⟨t, hcall, ok⟩ := Except.bind_eq_ok.mp ok
  obtain ⟨w, hnext, ok⟩ := Except.bind_eq_ok.mp ok
  obtain rfl := Except.ok.inj ok
  obtain ⟨htaken, hfacts⟩ := Prod.mk.inj hfacts
  obtain ⟨hframes, hfacts⟩ := Prod.mk.inj hfacts
  obtain ⟨hbitmap, hfree⟩ := Prod.mk.inj hfacts
  have hrange : ∀ x, 1 ≤ x / FRAME_SZ → x / FRAME_SZ ≤ 15 → Paging.Reached roomyKernel x :=
    fun x h1 h2 => ⟨(0x1000, 0xf000), List.mem_cons_self, h1, h2⟩
  refine ⟨u, t, w, hinit, ?_, hcall, hnext⟩
  rintro x (⟨h1, h2⟩ | ⟨t, ht, h1, h2⟩ | ⟨hlt, free⟩)
  · rw [hbitmap] at h1
    rw [hbitmap, hframes] at h2
    dsimp only at h1 h2
    exact hrange x (by simp only [FRAME_SZ]; omega) (by simp only [FRAME_SZ]; omega)
  · have htables : ∀ t ∈ 0xe000 :: u.taken, t % FRAME_SZ = 0 ∧ 0x1000 ≤ t ∧ t ≤ 0xf000 := by
      rw [htaken]
      decide
    obtain ⟨haligned, hfirst, hlast⟩ := htables t ht
    simp only [PAGE_SZ, FRAME_SZ] at h2 haligned
    exact hrange x (by simp only [FRAME_SZ]; omega) (by simp only [FRAME_SZ]; omega)
  · have hframe : x / FRAME_SZ ∈ (List.range 17).filter fun i => !u.pmem.locked i :=
      List.mem_filter.mpr ⟨List.mem_range.mpr (hframes ▸ hlt), by rw [free]; rfl⟩
    rw [hfree] at hframe
    have hbetween : ∀ i ∈ [10, 11, 12, 13], 1 ≤ i ∧ i ≤ 15 := by decide
    exact hrange x (hbetween _ hframe).1 (hbetween _ hframe).2

theorem roomy_low : ∀ r ∈ Paging.ranges roomyKernel, r.1 + r.2 < 2 ^ 44 := by decide +kernel

theorem roomy_missed : ∀ v ∈ [testAddr, testAddr + PAGE_SZ], ¬ Paging.Reached roomyKernel v := by
  rintro v hv ⟨r, hr, hreach⟩
  revert v r
  decide +kernel

/-- Two pages that share their tables are mapped through the tables. -/
theorem roomy_allocatePages : ∃ u w, (PhysMem.roomy.clear 0xe000).init 0xe000 roomyKernel = .ok u ∧
    [(testAddr, 0), (testAddr + PAGE_SZ, 0x6000)].foldlM
      (fun s call => allocatePage 0xe000 call.1 call.2 s) u = .ok w := by
  obtain ⟨u, t, w, hinit, mapped, hcall, hnext⟩ := roomy_init
  obtain ⟨paths, ready⟩ :=
    ready_of_init (begun_clear PhysMem.roomy_begun) roomy_low hinit mapped
  refine ⟨u, w, hinit, (allocatePages_eq ready _ fun call hcall => ?_).trans ?_⟩
  · have hv : call.1 ∈ [testAddr, testAddr + PAGE_SZ] := List.mem_map_of_mem hcall
    have hlow : ∀ v ∈ [testAddr, testAddr + PAGE_SZ], v < 2 ^ 48 := by decide
    exact away_of_missed roomy_low mapped (hlow _ hv) (roomy_missed _ hv)
  · rw [List.foldlM_cons, hcall, Except.ok_bind, List.foldlM_cons, hnext, Except.ok_bind,
      List.foldlM_nil]
    rfl

/-- With its one segment mapped the constructor of the small machine ends, and the test passes. With
the first page of the segment alone it is a page fault. -/
theorem roomy_new_tests : (∃ t, new 0xe000 roomyKernel PhysMem.roomy = .ok (false, t)) ∧
    new 0xe000 (Paging.machine 0xfed00000 0x1f00) PhysMem.roomy = .error .pageFault := by
  have begun := begun_clear PhysMem.roomy_begun
  constructor
  · obtain ⟨u, t, -, hinit, mapped, hcall, -⟩ := roomy_init
    have htests := (new_tests (by decide) (by decide) begun roomy_low hinit).2 mapped
      (roomy_missed _ List.mem_cons_self)
    rw [hcall] at htests
    exact ⟨_, htests⟩
  · obtain ⟨u, hinit, -⟩ : ∃ u, (PhysMem.roomy.clear 0xe000).init 0xe000
        (Paging.machine 0xfed00000 0x1f00) = .ok u ∧ u.pmem.frames = 17 := by
      apply Except.ok_of_toOption_map
      simp only [PhysMem.clear, PhysMem.init, PhysMem.identityFrom, PhysMem.allocatePage,
        PhysMem.getOrCreate, Paging.memset_eq]
      decide +kernel
    refine (new_tests (by decide) (by decide) begun (by decide +kernel) hinit).1 ?_
    rintro ⟨r, hr, hreach⟩
    revert r
    decide +kernel

end Paged

end PrintOS
