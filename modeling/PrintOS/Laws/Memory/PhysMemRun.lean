import PrintOS.Laws.Memory.PhysMem

/-!
# Runs in one memory

Calls of `allocate_page`, calls of the allocator and writes of clients come in any order. From a
kernel before its first page (`Begun`) such a run is a run with a memory each for the bitmap and the
tables (`refines`). What the laws of `PMem` and of `Paging` assume of the other part is then a theorem:
the table frames are fresh, and the page map is what the calls made of it (`pageMap_of_run`). The
frames that were handed out to clients hold what the clients wrote (`client_frame_kept`).
-/

namespace PrintOS

open ByteMemory (Mem Byte lastWrite lastWrite_cons writeAt)

namespace PhysMem

open Paging (entry entryAddr setEntry Fresh Tables State)
open PMem (SameBitmap)

variable {PML4 : Nat} {m m' : PhysMem} {s s' : State PMem} {paths : Nat → Option (List Nat)}
variable {t f idx x : Nat} {ops : List Op}

/-- The kernel before its first page: the PML4 is cleared, and what is to be kept is locked. -/
structure Begun (PML4 : Nat) (m : PhysMem) : Prop where
  small : m.pmem.frames ≤ 2 ^ 20
  root : PML4 % PAGE_SZ = 0
  taken : m.taken = []
  zero : ∀ x, PML4 ≤ x → x < PML4 + PAGE_SZ → m.mem x = 0
  locked : ∀ idx < m.pmem.frames, m.Kept PML4 idx → m.pmem.locked idx = true
  bitmap : ∀ x, BitmapByte m.pmem x → x < PML4 ∨ PML4 + PAGE_SZ ≤ x

theorem Begun.safe (begun : Begun PML4 m) : Safe PML4 m := by
  refine ⟨begun.small, begun.root, ?_, begun.locked, ?_⟩
  · rw [begun.taken]
    exact ⟨List.nodup_nil, fun _ h => absurd h List.not_mem_nil,
      fun _ h => absurd h List.not_mem_nil, List.not_mem_nil⟩
  · rintro x hx ⟨t, ht, h1, h2⟩
    rw [begun.taken, List.mem_singleton] at ht
    have := begun.bitmap x hx
    omega

/-- The state with two memories that a run begins in. -/
def twoMemories (m : PhysMem) : State PMem := ⟨m.mem, m.pmem, m.taken⟩

theorem Begun.sound (begun : Begun PML4 m) :
    ∃ paths, Tables PML4 m.twoMemories.mem m.twoMemories.taken paths := by
  obtain ⟨tables, -⟩ := Paging.tables_zero begun.root begun.zero
  show ∃ paths, Tables PML4 m.mem m.taken paths
  rw [begun.taken]
  exact ⟨_, tables⟩

/-- The allocator as its constructor leaves it, once the frames that are to be kept are locked. -/
theorem begun_of_new {mmap : MemoryMap} {stack self : Nat} {mem : Mem} {p q : PMem}
    {calls : List PMem.Op} (range : PMem.InitInRange mmap stack self)
    (built : PMem.new mmap stack self mem = .ok p) (run : Run PMem.step PMem.InRange p calls q)
    (small : q.frames ≤ 2 ^ 20) (root : PML4 % PAGE_SZ = 0)
    (zero : ∀ x, PML4 ≤ x → x < PML4 + PAGE_SZ → mem x = 0)
    (locked : ∀ idx < q.frames, Kept PML4 ⟨q, []⟩ idx → q.locked idx = true)
    (bitmap : ∀ x, BitmapByte q x → x < PML4 ∨ PML4 + PAGE_SZ ≤ x) : Begun PML4 ⟨q, []⟩ := by
  refine ⟨small, root, rfl, fun x h1 h2 => ?_, locked, bitmap⟩
  have whole := (PMem.run_initOps range built).append run
  obtain ⟨hbyte, hmem⟩ := PMem.outside_of_run whole
  have hout : ¬ BitmapByte (PMem.start mmap self mem) x := by
    intro h
    have := bitmap x ((hbyte x).mpr h)
    omega
  show q.mem x = 0
  rw [hmem x hout, ← zero x h1 h2]
  -- the constructor of the bitmap clears the bitmap's bytes only
  refine Mem.fill_of_outside ?_
  by_contra inside
  have hfirst : mmap.getLargestFreeSeg.2 ≤ x := by omega
  refine hout ⟨hfirst, ?_⟩
  have hsize : u64 (mmap.getPageFramesNumber + 7) / 8 = (mmap.getPageFramesNumber + 7) / 8 :=
    PMem.bitmapBytes_eq mmap
  show x < mmap.getLargestFreeSeg.2 + (mmap.getPageFramesNumber + 7) / 8
  omega

/-- Frames of the machine are locked and freed. -/
def AdmApart (s : State PMem) : Op → Prop
  | .pmem op => s.pmem.InRange op
  | _ => True

theorem Rel.adm {op : Op} (rel : Rel PML4 m s) (adm : Adm PML4 m op) : AdmApart s op := by
  cases op with
  | pmem op =>
    have hframes := rel.pmem.frames
    have hrange := adm.inRange
    cases op with
    | freeFrame idx => exact Nat.lt_of_lt_of_eq hrange hframes.symm
    | lockFrame idx => exact Nat.lt_of_lt_of_eq hrange hframes.symm
    | _ => trivial
  | _ => trivial

theorem run_refines (safe : Safe PML4 m) (rel : Rel PML4 m s)
    (sound : ∃ paths, Tables PML4 s.mem s.taken paths)
    (run : Run (step PML4) (Adm PML4) m ops m') :
    ∃ s', Run (stepApart PML4) AdmApart s ops s' ∧ Safe PML4 m' ∧ Rel PML4 m' s' ∧
      ∃ paths', Tables PML4 s'.mem s'.taken paths' := by
  induction run generalizing s with
  | nil m => exact ⟨s, .nil s, safe, rel, sound⟩
  | cons adm ok _ ih =>
    obtain ⟨s₁, ok', safe₁, rel₁, -, sound₁⟩ := step_refines safe rel sound adm ok
    obtain ⟨s', rest, hrest⟩ := ih safe₁ rel₁ sound₁
    exact ⟨s', .cons (rel.adm adm) ok' rest, hrest⟩

/-! ## The allocator of a run with two memories -/

/-- A level is at most one request. -/
theorem descendFrom_requests {lv : List (String × Nat)} {tables : List Nat}
    (ok : Paging.descendFrom PMem.requestFrame lv t s = .ok (tables, s')) :
    ∃ calls, Run PMem.step PMem.InRange s.pmem calls s'.pmem := by
  induction lv generalizing t tables s with
  | nil =>
    cases ok
    exact ⟨[], .nil _⟩
  | cons l rest ih =>
    obtain ⟨child, u, tables', hlevel, hrest, -⟩ := Paging.descendFrom_cons ok
    obtain ⟨calls, run⟩ := ih hrest
    rcases Paging.getOrCreate_ok hlevel with ⟨-, -, rfl⟩ | ⟨-, -, p, hreq, rfl⟩
    · exact ⟨calls, run⟩
    · refine ⟨.requestFrame :: calls, .cons trivial ?_ run⟩
      rw [PMem.step, hreq]
      rfl

theorem allocatePage_requests {vaddr paddr : Nat}
    (ok : Paging.allocatePage PMem.requestFrame PML4 vaddr paddr s = .ok s') :
    ∃ calls, Run PMem.step PMem.InRange s.pmem calls s'.pmem := by
  rw [Paging.allocatePage_eq] at ok
  obtain ⟨⟨tables, u⟩, hdescend, ok⟩ := Except.bind_eq_ok.mp ok
  obtain rfl := Except.ok.inj ok
  obtain ⟨calls, run⟩ := descendFrom_requests hdescend
  exact ⟨calls, run⟩

/-- So the allocator itself has made a run of its own calls. -/
theorem pmem_of_runApart (run : Run (stepApart PML4) AdmApart s ops s') :
    ∃ calls, Run PMem.step PMem.InRange s.pmem calls s'.pmem := by
  induction run with
  | nil s => exact ⟨[], .nil _⟩
  | @cons s u s' op ops adm ok _ ih =>
    obtain ⟨calls, rest⟩ := ih
    cases op with
    | allocatePage vaddr paddr =>
      obtain ⟨first, run⟩ := allocatePage_requests ok
      exact ⟨first ++ calls, run.append rest⟩
    | pmem op =>
      obtain ⟨p, hstep, heq⟩ := Except.bind_eq_ok.mp ok
      obtain rfl := Except.ok.inj heq
      exact ⟨op :: calls, .cons adm hstep rest⟩
    | write addr v =>
      obtain rfl := Except.ok.inj ok
      exact ⟨calls, rest⟩

/-- **The one memory refines two.** From a kernel before its first page, every run in the one memory,
with the calls and the clients' writes in any order, is a run of the same calls where the bitmap and
the tables have a memory each, and the allocator in it has made a run of its own. -/
theorem refines (begun : Begun PML4 m) (run : Run (step PML4) (Adm PML4) m ops m') :
    ∃ s' calls, Run (stepApart PML4) AdmApart m.twoMemories ops s' ∧ Rel PML4 m' s' ∧
      Run PMem.step PMem.InRange m.pmem calls s'.pmem := by
  obtain ⟨s', run', -, rel, -⟩ := run_refines begun.safe (.refl PML4 m) begun.sound run
  obtain ⟨calls, hcalls⟩ := pmem_of_runApart run'
  exact ⟨s', calls, run', rel, hcalls⟩

/-! ## A small machine -/

/-- Fifteen usable frames from frame 1 on, with the stack in frame 15. -/
def roomyMap : MemoryMap :=
  ⟨[⟨EfiMemoryType.conventionalMemory.code, 0x1000, 15⟩], by decide⟩

/-- The allocator constructed for it. -/
def roomyPMem : PMem := (PMem.start roomyMap 0xf108 fun _ => 0).initFrames roomyMap.descs 0xf800

set_option maxRecDepth 20000 in
theorem roomy_new : PMem.new roomyMap 0xf800 0xf108 (fun _ => 0) = .ok roomyPMem := rfl

/-- The bitmap is in frame 1, and the PML4 is frame 14: both are locked as well. -/
def roomyLocked : PMem := (roomyPMem.lockFrame 1).lockFrame 14

def roomy : PhysMem := ⟨roomyLocked, []⟩

theorem roomy_inRange : PMem.InitInRange roomyMap 0xf800 0xf108 :=
  ⟨by decide +kernel, by decide +kernel, by decide +kernel⟩

theorem roomy_locks :
    Run PMem.step PMem.InRange roomyPMem [.lockFrame 1, .lockFrame 14] roomyLocked := by
  refine .cons ?_ rfl (.cons ?_ rfl (.nil _))
  · show 1 < _
    decide +kernel
  · show 14 < _
    decide +kernel

attribute [irreducible] roomyLocked

theorem roomy_bitmapByte : BitmapByte roomyLocked x ↔ 0x1000 ≤ x ∧ x < 0x1003 := by
  have hbitmap : roomyLocked.bitmap = ⟨0x1000, 3, 0xf108⟩ := by decide +kernel
  have hframes : roomyLocked.frames = 17 := by decide +kernel
  rw [BitmapByte, hbitmap, hframes]

theorem roomy_begun : Begun 0xe000 roomy := by
  refine begun_of_new roomy_inRange roomy_new roomy_locks (by decide +kernel) (by decide)
    (fun _ _ _ => rfl) ?_ ?_
  · intro idx hlt kept
    have hidx : idx = 0 ∨ idx = 1 ∨ idx = 14 := by
      rcases kept with rfl | ⟨x, rfl, hbyte | ⟨t, ht, h1, h2⟩⟩
      · exact .inl rfl
      · obtain ⟨h1, h2⟩ := roomy_bitmapByte.mp hbyte
        simp only [FRAME_SZ]
        omega
      · rw [List.mem_singleton] at ht
        simp only [PAGE_SZ, FRAME_SZ] at h2 ⊢
        omega
    rcases hidx with rfl | rfl | rfl <;> decide +kernel
  · intro x hx
    obtain ⟨h1, h2⟩ := roomy_bitmapByte.mp hx
    omega

/-- A client asks for a frame and writes to it, and then a page is mapped. -/
theorem roomy_run : ∃ u t, step 0xe000 roomy (.pmem .requestFrame) = .ok u ∧
    Run (step 0xe000) (Adm 0xe000) u
      [.write 0x2010 0x2a#8, .allocatePage 0x99999999999 0x6000] t ∧
    t.taken = [0x3000, 0x4000, 0x5000] := by
  obtain ⟨t, ok, htaken⟩ : ∃ t, (do
      let u ← step 0xe000 roomy (.pmem .requestFrame)
      let u ← step 0xe000 u (.write 0x2010 0x2a#8)
      step 0xe000 u (.allocatePage 0x99999999999 0x6000)) = .ok t ∧
        t.taken = [0x3000, 0x4000, 0x5000] := by
    apply Except.ok_of_toOption_map
    simp only [step, allocatePage, getOrCreate, Paging.memset_eq]
    decide +kernel
  obtain ⟨u, hrequest, ok⟩ := Except.bind_eq_ok.mp ok
  obtain ⟨w, hwrite, hpage⟩ := Except.bind_eq_ok.mp ok
  obtain ⟨p, hstep, rfl⟩ := step_pmem_ok hrequest
  refine ⟨_, t, hrequest, .cons ⟨fun hbyte => ?_, ?_⟩ hwrite (.cons ?_ hpage (.nil t)), htaken⟩
  · obtain ⟨h1, h2⟩ := roomy_bitmapByte.mp ((PMem.step_bitmapByte hstep).mp hbyte)
    omega
  · rintro ⟨t, ht, h1, h2⟩
    rw [show roomy.taken = [] from rfl, List.mem_singleton] at ht
    omega
  · show 0x6000 < 2 ^ 44
    decide

/-- The run of the small machine, with the request in it. -/
theorem roomy_run' : ∃ t, Run (step 0xe000) (Adm 0xe000) roomy
    [.pmem .requestFrame, .write 0x2010 0x2a#8, .allocatePage 0x99999999999 0x6000] t := by
  obtain ⟨u, t, hrequest, run, -⟩ := roomy_run
  exact ⟨t, .cons trivial hrequest run⟩

/-- It is a run with two memories. -/
theorem roomy_refines : ∃ t s' calls, Run (stepApart 0xe000) AdmApart roomy.twoMemories
    [.pmem .requestFrame, .write 0x2010 0x2a#8, .allocatePage 0x99999999999 0x6000] s' ∧
      Rel 0xe000 t s' ∧ Run PMem.step PMem.InRange roomy.pmem calls s'.pmem := by
  obtain ⟨t, run⟩ := roomy_run'
  exact ⟨t, refines roomy_begun run⟩

/-! ## The page map -/

/-- What a call maps the page of an address to. -/
def Op.maps (w : Nat) : Op → Option Nat
  | .allocatePage vaddr paddr =>
    if Paging.pageNumber vaddr = Paging.pageNumber w then some paddr else none
  | _ => none

/-- What the last call for the page of an address mapped it to. -/
def lastMapping (w : Nat) : List Op → Option Nat
  | [] => none
  | op :: ops => (lastMapping w ops).or (op.maps w)

/-- The fields of a page's entry: `present`, `rw` and the frame's number. -/
def fields (e : Nat) : Nat × Nat × Nat := (presentField e, rwField e, addrField e)

theorem fields_of_maps {e paddr : Nat} (maps : Paging.Maps e paddr) (hpaddr : paddr < 2 ^ 44) :
    fields e = (1, 1, paddr / 2 ^ 12) := by
  have hframe := maps.frame
  rw [PAGE_OFFSET_BITS, Nat.shiftRight_eq_div_pow] at hframe
  rw [fields, maps.present, maps.writable, hframe, Nat.mod_eq_of_lt (by omega)]

/-- One step sets the entry of its own page. -/
theorem stepApart_lookup {op : Op} (sound : ∃ paths, Tables PML4 s.mem s.taken paths)
    (small : ∀ vaddr paddr, op = .allocatePage vaddr paddr → paddr < 2 ^ 44)
    (ok : stepApart PML4 s op = .ok s') (fresh : Fresh PML4 s'.taken) (w : Nat) :
    (Paging.lookup PML4 s'.mem w).map fields =
      ((op.maps w).map fun paddr => (1, 1, paddr / 2 ^ 12)).or
        ((Paging.lookup PML4 s.mem w).map fields) := by
  cases op with
  | allocatePage vaddr paddr =>
    obtain ⟨paths, sound⟩ := sound
    obtain ⟨-, ⟨e, he, hmaps⟩, hothers⟩ := Paging.allocatePage_spec sound ok fresh
    by_cases hpage : Paging.pageNumber vaddr = Paging.pageNumber w
    · have hlookup : Paging.lookup PML4 s'.mem w = some e := by
        rw [Paging.lookup, ← Paging.path_inj.mpr hpage]
        exact he
      rw [hlookup, Op.maps, if_pos hpage, Option.map_some, Option.map_some, Option.some_or,
        fields_of_maps hmaps (small vaddr paddr rfl)]
    · rw [hothers w fun h => hpage (Paging.path_inj.mp h).symm, Op.maps, if_neg hpage,
        Option.map_none, Option.none_or]
  | pmem op =>
    obtain ⟨p, -, heq⟩ := Except.bind_eq_ok.mp ok
    obtain rfl := Except.ok.inj heq
    rfl
  | write addr v =>
    obtain rfl := Except.ok.inj ok
    rfl

theorem lookup_of_run (safe : Safe PML4 m) (rel : Rel PML4 m s)
    (sound : ∃ paths, Tables PML4 s.mem s.taken paths)
    (run : Run (step PML4) (Adm PML4) m ops m') (w : Nat) :
    ∃ s', Rel PML4 m' s' ∧ (∃ paths, Tables PML4 s'.mem s'.taken paths) ∧
      (Paging.lookup PML4 s'.mem w).map fields =
        ((lastMapping w ops).map fun paddr => (1, 1, paddr / 2 ^ 12)).or
          ((Paging.lookup PML4 s.mem w).map fields) := by
  induction run generalizing s with
  | nil m => exact ⟨s, rel, sound, rfl⟩
  | @cons m u m' op ops adm ok _ ih =>
    obtain ⟨s₁, ok', safe₁, rel₁, -, sound₁⟩ := step_refines safe rel sound adm ok
    obtain ⟨s', rel', sound', hlast⟩ := ih safe₁ rel₁ sound₁
    have hsmall : ∀ vaddr paddr, op = .allocatePage vaddr paddr → paddr < 2 ^ 44 := by
      rintro vaddr paddr rfl
      exact adm
    refine ⟨s', rel', sound', ?_⟩
    rw [hlast, stepApart_lookup sound hsmall ok' (rel₁.taken ▸ safe₁.fresh) w, lastMapping,
      ← Option.or_assoc]
    cases lastMapping w ops <;> rfl

/-- A request hands out no frame that is kept. -/
theorem Safe.not_handed (safe : Safe PML4 m) (kept : m.Kept PML4 idx) (op : PMem.Op) :
    idx ∉ m.pmem.handed op := by
  intro hmem
  obtain ⟨free, hlt⟩ := PMem.handed_spec hmem
  exact safe.not_kept hlt free kept

/-- **The page tables in the one memory.** From a kernel before its first page, after any run: the
table frames are distinct pages below 4 GiB and none of them is the PML4; a page's entry is present,
writable and has the frame of the last call for the page, and where there was none no entry is
found; and the frames of the tables and of the bitmap, and frame 0, are locked, and no request hands
one of them out. -/
theorem pageMap_of_run (begun : Begun PML4 m) (run : Run (step PML4) (Adm PML4) m ops m') :
    Fresh PML4 m'.taken ∧
      (∀ w, (Paging.lookup PML4 m'.mem w).map fields =
        (lastMapping w ops).map fun paddr => (1, 1, paddr / 2 ^ 12)) ∧
      (∀ w, Paging.isPageAllocated PML4 m'.mem w = (lastMapping w ops).isSome) ∧
      ∀ idx < m'.pmem.frames, m'.Kept PML4 idx →
        m'.pmem.locked idx = true ∧ ∀ op, idx ∉ m'.pmem.handed op := by
  obtain ⟨-, -, safe, -, -⟩ := run_refines begun.safe (.refl PML4 m) begun.sound run
  have hmap : ∀ w, (Paging.lookup PML4 m'.mem w).map fields =
      (lastMapping w ops).map fun paddr => (1, 1, paddr / 2 ^ 12) := by
    intro w
    obtain ⟨s', rel, ⟨paths, sound⟩, hlast⟩ :=
      lookup_of_run begun.safe (.refl PML4 m) begun.sound run w
    obtain ⟨-, hempty⟩ := Paging.tables_zero begun.root begun.zero
    have hstart : Paging.lookup PML4 m.mem w = none := by
      have hfirst : (PageIndexer.new w).pml4 ∈ Paging.path w := List.mem_cons_self
      exact Paging.lookupFrom_empty (hempty _ (Paging.path_lt hfirst))
    rw [rel.lookup_eq sound, hlast, hstart, Option.map_none, Option.or_none]
  refine ⟨safe.fresh, hmap, fun w => ?_, fun idx hlt kept => ?_⟩
  · have hsome := congrArg Option.isSome (hmap w)
    rw [Option.isSome_map, Option.isSome_map] at hsome
    rw [Paging.isPageAllocated_eq, hsome]
  · exact ⟨safe.locked idx hlt kept, fun op => safe.not_handed kept op⟩

/-- In the small machine the page is mapped, with every address on it, and no other one is. -/
theorem roomy_pageMap : ∃ t, Run (step 0xe000) (Adm 0xe000) roomy
    [.pmem .requestFrame, .write 0x2010 0x2a#8, .allocatePage 0x99999999999 0x6000] t ∧
      Paging.isPageAllocated 0xe000 t.mem 0x99999999123 = true ∧
        Paging.isPageAllocated 0xe000 t.mem 0x6000 = false := by
  obtain ⟨t, run⟩ := roomy_run'
  obtain ⟨-, -, halloc, -⟩ := pageMap_of_run roomy_begun run
  exact ⟨t, run, (halloc _).trans (by decide +kernel), (halloc _).trans (by decide +kernel)⟩

/-! ## The clients' memory -/

/-- The byte that a client writes. -/
def Op.writes : Op → Option (Nat × Byte)
  | .write addr v => some (addr, v)
  | _ => none

/-- A frame that a request hands out is the client's. -/
theorem client_of_handed {op : PMem.Op} {p : PMem} (safe : Safe PML4 m)
    (adm : Adm PML4 m (.pmem op)) (ok : m.pmem.step op = .ok p) (hf : f ∈ m.pmem.handed op) :
    Client PML4 { m with pmem := p } f := by
  obtain ⟨free, hlt⟩ := PMem.handed_spec hf
  have hop : m.pmem.locks op = m.pmem.handed op ∧ op.frees = [] := by
    cases op with
    | requestFrame => exact ⟨rfl, rfl⟩
    | requestFrames number => exact ⟨rfl, rfl⟩
    | lockFrame idx => cases hf
    | freeFrame idx => cases hf
  refine ⟨(PMem.step_frames ok).symm ▸ hlt, ?_, fun kept => ?_⟩
  · show p.locked f = true
    rw [PMem.step_locked ok, hop.1, hop.2]
    simp [hf]
  · exact safe.not_kept hlt free (kept_of_pmem ok kept)

theorem client_of_run (safe : Safe PML4 m) (rel : Rel PML4 m s)
    (sound : ∃ paths, Tables PML4 s.mem s.taken paths)
    (run : Run (step PML4) (Adm PML4) m ops m') (client : Client PML4 m f)
    (kept : .pmem (.freeFrame f) ∉ ops) :
    Client PML4 m' f ∧ ∀ x, x / FRAME_SZ = f → m'.mem x = (lastWrite Op.writes x ops).getD (m.mem x) := by
  induction run generalizing s with
  | nil m => exact ⟨client, fun _ _ => rfl⟩
  | @cons m u m' op ops adm ok _ ih =>
    rw [List.mem_cons, not_or] at kept
    obtain ⟨s₁, -, safe₁, rel₁, leaves, sound₁⟩ := step_refines safe rel sound adm ok
    obtain ⟨client₁, hmem⟩ := leaves f client fun h => kept.1 h.symm
    obtain ⟨client', hlast⟩ := ih safe₁ rel₁ sound₁ client₁ kept.2
    refine ⟨client', fun x hx => ?_⟩
    have hstep : u.mem x = (writeAt Op.writes x op).getD (m.mem x) := by
      cases op with
      | write addr v =>
        obtain rfl := Except.ok.inj ok
        exact Mem.write_eq_writeAt rfl
      | _ => exact hmem x hx nofun
    rw [hlast x hx, hstep, lastWrite_cons, Option.getD_or]

/-- **A client's frame holds what the client wrote.** A frame that a request has handed out is, until
it is freed, locked and no table's and not the bitmap's, no other request hands it out, and each of
its bytes is what was last written to it, or what it was when the frame was handed out. -/
theorem client_frame_kept {pre : List Op} {op : PMem.Op} {u w : PhysMem} (begun : Begun PML4 m)
    (before : Run (step PML4) (Adm PML4) m pre u) (hf : f ∈ u.pmem.handed op)
    (ok : step PML4 u (.pmem op) = .ok w) (run : Run (step PML4) (Adm PML4) w ops m')
    (kept : .pmem (.freeFrame f) ∉ ops) :
    (m'.pmem.locked f = true ∧ ¬ m'.Kept PML4 f ∧ ∀ op', f ∉ m'.pmem.handed op') ∧
      ∀ x, x / FRAME_SZ = f → m'.mem x = (lastWrite Op.writes x ops).getD (u.mem x) := by
  obtain ⟨s, -, safe, rel, sound⟩ := run_refines begun.safe (.refl PML4 m) begun.sound before
  obtain ⟨p, hstep, rfl⟩ := step_pmem_ok ok
  have adm : Adm PML4 u (.pmem op) := by
    cases op with
    | lockFrame idx => cases hf
    | freeFrame idx => cases hf
    | _ => trivial
  obtain ⟨s₁, -, safe₁, rel₁, -, sound₁⟩ := step_refines safe rel sound adm ok
  have client₁ := client_of_handed safe adm hstep hf
  obtain ⟨client, hmem⟩ := client_of_run safe₁ rel₁ sound₁ run client₁ kept
  refine ⟨⟨client.locked, client.other, fun op' hmem => ?_⟩, fun x hx => ?_⟩
  · have hlocked := client.locked
    rw [PMem.handed_free hmem] at hlocked
    cases hlocked
  · subst hx
    have hsame : p.mem x = u.mem x := PMem.step_outside adm.inRange hstep fun hbyte =>
      client₁.bitmap ((PMem.step_bitmapByte hstep).mpr hbyte)
    rw [hmem x rfl]
    exact congrArg _ hsame

/-- In the small machine the client's byte outlives the tables that are made after it. -/
theorem roomy_client_kept : ∃ u t, step 0xe000 roomy (.pmem .requestFrame) = .ok u ∧
    Run (step 0xe000) (Adm 0xe000) u
      [.write 0x2010 0x2a#8, .allocatePage 0x99999999999 0x6000] t ∧
    t.pmem.locked 2 = true ∧ t.mem 0x2010 = 0x2a#8 := by
  obtain ⟨u, t, hrequest, run, -⟩ := roomy_run
  obtain ⟨⟨hlocked, -⟩, hbytes⟩ := client_frame_kept roomy_begun (.nil roomy)
    (f := 2) (by decide +kernel) hrequest run (by decide)
  exact ⟨u, t, hrequest, run, hlocked, hbytes 0x2010 (by decide)⟩

/-! ## A table on the bitmap

The constructor of `PMem` leaves the bitmap's own frames free, so `Begun` is not what a kernel starts
with. A table that is made there is cleared, with the bits in it. -/

/-- The next request begins at the frame that was handed out last. -/
theorem requestFrame_of_hint {p : PMem} (hlt : p.lastFreeIdx < p.frames)
    (free : p.locked p.lastFreeIdx = false) (hpos : 0 < p.freeFrames) :
    ∃ q, p.requestFrame = .ok (PMem.idxToFramePtr p.lastFreeIdx, q) := by
  obtain ⟨n, hn⟩ : ∃ n, p.frames - p.lastFreeIdx = n + 1 :=
    Nat.exists_eq_succ_of_ne_zero (Nat.sub_ne_zero_of_lt hlt)
  have hbit : (!p.bitmap.get p.mem p.lastFreeIdx) = true := by
    rw [Bool.not_eq_true']
    exact free
  have hfind : p.findFree = some p.lastFreeIdx := by
    rw [PMem.findFree, hn, List.range'_succ]
    exact List.find?_cons_of_pos hbit
  refine ⟨{ p.lockFrame p.lastFreeIdx with lastFreeIdx := p.lastFreeIdx }, ?_⟩
  simp only [PMem.requestFrame, kassert_of hpos, hfind]
  rfl

/-- **When a new table keeps its frame**: the frame of a table that was made is locked exactly when
its bit is not in the table itself. Where the bit is there, the next request answers with the same
frame. -/
theorem newTable_locked_iff {text : String} {addr child : Nat} (small : m.pmem.frames ≤ 2 ^ 20)
    (absent : presentField (m.mem.read64 addr) = 0)
    (ok : getOrCreate text addr m = .ok (child, m'))
    (hentry : m.pmem.bitmap.byteAddr (child / FRAME_SZ) < addr ∨
      addr + 8 ≤ m.pmem.bitmap.byteAddr (child / FRAME_SZ)) :
    (m'.pmem.locked (child / FRAME_SZ) = true ↔
      m.pmem.bitmap.byteAddr (child / FRAME_SZ) < child ∨
        child + PAGE_SZ ≤ m.pmem.bitmap.byteAddr (child / FRAME_SZ)) ∧
      (m'.pmem.locked (child / FRAME_SZ) = false → 0 < m'.pmem.freeFrames →
        ∃ q, m'.pmem.requestFrame = .ok (child, q)) := by
  rcases getOrCreate_ok ok with ⟨present, -, -⟩ | ⟨-, hnull, p, hreq, rfl⟩
  · exact absurd absent present
  obtain ⟨-, ⟨-, rfl, -⟩ | ⟨idx, hsome, hchild, rfl⟩⟩ := PMem.requestFrame_ok hreq
  · exact absurd rfl hnull
  obtain ⟨-, -, hlt⟩ := PMem.findFree_some hsome
  have haddress : child = idx * FRAME_SZ := by
    rw [hchild]
    refine u64_of_lt ?_
    simp only [FRAME_SZ]
    omega
  have hidx : child / FRAME_SZ = idx := by
    rw [haddress]
    exact Nat.mul_div_cancel idx (by decide)
  rw [hidx] at hentry ⊢
  have hbitmap : (m.pmem.lockFrame idx).bitmap = m.pmem.bitmap := PMem.bitmap_lockFrame
  have hframes : (m.pmem.lockFrame idx).frames = m.pmem.frames := PMem.frames_lockFrame
  have hlocked := PMem.locked_lockFrame m.pmem idx idx
  rw [decide_eq_true rfl, Bool.or_true, PMem.locked, hbitmap] at hlocked
  generalize hmem : setEntry (memset (m.pmem.lockFrame idx).mem child 0 PAGE_SZ) addr
    (child >>> PAGE_OFFSET_BITS) = mem
  have hbyte : mem (m.pmem.bitmap.byteAddr idx) = memset (m.pmem.lockFrame idx).mem child 0 PAGE_SZ
      (m.pmem.bitmap.byteAddr idx) := by
    rw [← hmem]
    exact Paging.setEntry_of_outside hentry
  refine ⟨?_, fun free hpos => ?_⟩
  · show (m.pmem.lockFrame idx).bitmap.get mem idx = true ↔ _
    rw [Bitmap.get_eq] at hlocked
    rw [hbitmap, Bitmap.get_eq, hbyte]
    by_cases hin : m.pmem.bitmap.byteAddr idx < child ∨
        child + PAGE_SZ ≤ m.pmem.bitmap.byteAddr idx
    · rw [memset, Mem.fill_of_outside hin]
      exact iff_of_true hlocked hin
    · have hzero : (0 : Byte).getLsbD (idx % 8) = false := BitVec.getLsbD_zero
      rw [memset, Mem.fill_apply, if_pos (by omega), hzero]
      exact iff_of_false Bool.false_ne_true hin
  · rw [hchild]
    exact requestFrame_of_hint (hlt.trans_eq hframes.symm) free hpos

/-- What the constructor of `PMem` leaves of the machine with four usable frames. -/
def constructed : PhysMem := ⟨PMem.small, []⟩

/-- The first table that is made then is on the bitmap, and loses its frame. -/
theorem constructed_table_free : ∃ m' q,
    getOrCreate "PDPT != nullptr" (entryAddr 0x4000 0) constructed = .ok (0x1000, m') ∧
      m'.pmem.locked 1 = false ∧ m'.pmem.requestFrame = .ok (0x1000, q) := by
  obtain ⟨⟨child, m'⟩, ok, heq⟩ : ∃ r, getOrCreate "PDPT != nullptr" (entryAddr 0x4000 0)
      constructed = .ok r ∧ (r.1, decide (0 < r.2.pmem.freeFrames)) = (0x1000, true) := by
    apply Except.ok_of_toOption_map
    simp only [getOrCreate, Paging.memset_eq]
    decide +kernel
  obtain ⟨rfl, hpos⟩ := Prod.mk.inj heq
  obtain ⟨hlocked, hnext⟩ := newTable_locked_iff (by decide +kernel) (by decide +kernel) ok
    (by decide +kernel)
  have hfree : m'.pmem.locked 1 = false := by
    rw [← Bool.not_eq_true]
    exact fun h => absurd (hlocked.mp h) (by decide +kernel)
  obtain ⟨q, hq⟩ := hnext hfree (of_decide_eq_true hpos)
  exact ⟨m', q, ok, hfree, hq⟩

/-- So the three tables of the first page are one. -/
example : ∃ t, step 0x4000 constructed (.allocatePage 0x99999999999 0x6000) = .ok t ∧
    t.taken = [0x1000, 0x1000, 0x1000] := by
  apply Except.ok_of_toOption_map
  simp only [step, allocatePage, getOrCreate, Paging.memset_eq]
  decide +kernel

end PhysMem

end PrintOS
