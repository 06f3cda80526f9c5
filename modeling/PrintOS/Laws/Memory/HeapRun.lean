import PrintOS.Laws.Memory.Heap

/-!
# Runs of the heap

Every completed operation on a heap that holds a pool is a step of the pool (`step_refines`), and
the constructor makes a heap of one block (`new_holds`). So a run of the heap is followed by a
run of the pool, as long as the pages that the heap obtains are fresh, and what the pool keeps
holds of the list in memory after every operation.

The laws at the end say it of memory alone: of the blocks that `next` pointers lead to from
`_blocks`, their headers, and the live pointers.
-/

namespace PrintOS.Heap

open ByteMemory (Mem Byte)
open Interval (Apart Before Covered)
open Linked (first last)

variable {σ : Type} {k : Kernel σ}

/-! ## One operation -/

section Refinement

variable {s s' : State σ} {P : Pool} {n ptr : Nat}

/-- What a completed `malloc` did: it took the block `b` of the heap `u`, which is the heap that it
was called on or that heap grown. -/
theorem malloc_spec (holds : Holds s P) (inv : P.Invariant)
    (ok : malloc k s n = .ok (ptr, s')) (hfresh : Fresh s'.obtained) :
    ∃ pos : 0 < n, ∃ u xs b ys frames mem, (u = s ∨ grow k n s = .ok u) ∧
      Holds u ⟨xs ++ b :: ys, frames, P.live⟩ ∧ BlocksApart (xs ++ b :: ys) ∧ n ≤ b.bytes ∧
      takeBlock u.mem b.addr n = .ok (ptr, mem) ∧ s' = { u with mem } ∧
      Holds s' ⟨xs ++ b.allocate n pos ++ ys, frames, (ptr, n) :: P.live⟩ ∧
      P.Step (.malloc n) ⟨xs ++ b.allocate n pos ++ ys, frames, (ptr, n) :: P.live⟩ := by
  obtain ⟨pos, block, u, mem, hfind, htake, rfl⟩ := malloc_ok ok
  have taken : ∀ {xs b ys frames}, Holds u ⟨xs ++ b :: ys, frames, P.live⟩ →
      BlocksApart (xs ++ b :: ys) → n ≤ b.bytes → block = b.addr → ptr = b.data ∧
        Holds { u with mem } ⟨xs ++ b.allocate n pos ++ ys, frames, (ptr, n) :: P.live⟩ := by
    rintro xs b ys frames hu apart enough rfl
    obtain ⟨mem', htake', hlaid⟩ := takeBlock_spec hu.laid apart pos enough
    obtain ⟨rfl, rfl⟩ := Prod.mk.inj (Except.ok.inj (htake.symm.trans htake'))
    refine ⟨rfl, hu.root.trans ?_, hlaid, hu.frames⟩
    simp only [List.append_assoc, Linked.first_append, first_allocate, Linked.first_cons]
  obtain ⟨blocks, frames, live⟩ := P
  rcases findOrGrow_spec holds inv hfind hfresh with
    ⟨xs, b, ys, hsplit, free, enough, passed, rfl, rfl⟩ |
    ⟨xs, c, ys, fresh, hsplit, nothing, enough, span, place, rfl, hgrow, hgrown⟩
  · obtain rfl : blocks = xs ++ b :: ys := hsplit
    obtain ⟨rfl, hholds⟩ := taken holds inv.apart enough rfl
    exact ⟨pos, _, xs, b, ys, frames, mem, .inl rfl, holds, inv.apart, enough, htake, rfl, hholds,
      .reuse pos free enough passed⟩
  · obtain rfl : blocks = xs ++ c :: ys := hsplit
    have hframes : u.obtained = frames ++ [(fresh.addr, n / PAGE_SZ + 1)] := hgrown.frames
    have hapart := (inv.insert (hframes ▸ hfresh) span (List.append_cons xs c ys)).1
    obtain ⟨rfl, hholds⟩ := taken hgrown hapart enough rfl
    exact ⟨pos, u, xs ++ [c], fresh, ys, _, mem, .inr hgrow, hgrown, hapart, enough, htake, rfl,
      hholds, .grow pos nothing enough span place⟩

/-- A completed `malloc` is a step of the pool. -/
theorem malloc_refines (holds : Holds s P) (inv : P.Invariant)
    (ok : malloc k s n = .ok (ptr, s')) (hfresh : Fresh s'.obtained) :
    ∃ Q, P.Step (.malloc n) Q ∧ Holds s' Q ∧ Q.live = (ptr, n) :: P.live := by
  obtain ⟨pos, _, _, _, _, _, _, -, -, -, -, -, -, hholds, hstep⟩ :=
    malloc_spec holds inv ok hfresh
  exact ⟨_, hstep, hholds, rfl⟩

/-- A completed `free` of a live pointer is a step of the pool. -/
theorem free_refines (holds : Holds s P) (inv : P.Invariant) (live : (ptr, n) ∈ P.live)
    (ok : free s ptr = .ok s') :
    ∃ Q, P.Step (.free ptr) Q ∧ Holds s' Q ∧ Q.live = P.live.filter (·.1 ≠ ptr) := by
  obtain ⟨b, hb, taken, rfl, -⟩ := inv.own.room _ live
  obtain ⟨xs, ys, hsplit⟩ := List.append_of_mem hb
  obtain ⟨blocks, frames, owned⟩ := P
  obtain rfl : blocks = xs ++ b :: ys := hsplit
  rcases List.eq_nil_or_concat xs with rfl | ⟨ws, a, rfl⟩
  · obtain ⟨mem, hfree, hlaid⟩ := free_first holds.laid inv.apart
    obtain rfl := Except.ok.inj (ok.symm.trans hfree)
    have hstep : Pool.Step ⟨b :: ys, frames, owned⟩ (.free b.data)
        ⟨join (b.mark true) ys, frames, owned.filter (·.1 ≠ b.data)⟩ := .freeFirst taken
    exact ⟨_, hstep, ⟨holds.root.trans hstep.first_eq.symm, hlaid, holds.frames⟩, rfl⟩
  · rw [List.concat_eq_append, ← List.append_cons] at holds inv ⊢
    rcases @free_later a b ws ys _ _ holds.laid inv.apart with ⟨-, herror⟩ | ⟨-, mem, hfree, hlaid⟩
    · rw [herror] at ok
      cases ok
    obtain rfl := Except.ok.inj (ok.symm.trans hfree)
    have hstep : Pool.Step ⟨ws ++ a :: b :: ys, frames, owned⟩ (.free b.data)
        ⟨ws ++ join a (join (b.mark true) ys), frames, owned.filter (·.1 ≠ b.data)⟩ :=
      .freeLater taken
    exact ⟨_, hstep, ⟨holds.root.trans hstep.first_eq.symm, hlaid, holds.frames⟩, rfl⟩

/-- A live allocation lies in the data of a block. -/
theorem inPayload_block {live : List (Nat × Nat)} {bs : List Block} {x : Nat}
    (own : Owns live bs) (hx : InPayload live x) : ∃ b ∈ bs, b.data ≤ x ∧ x < b.stop := by
  obtain ⟨a, ha, hlo, hhi⟩ := hx
  obtain ⟨b, hb, -, hdata, hroom⟩ := own.room a ha
  refine ⟨b, hb, hdata ▸ hlo, ?_⟩
  have hstop : b.stop = b.data + b.bytes := rfl
  omega

/-- Clients and other code write outside the headers. -/
theorem outside_headers {addr : Nat} (holds : Holds s P) (inv : P.Invariant)
    (allowed : InPayload P.live addr ∨ ¬ Obtained s.obtained addr) :
    ∀ b ∈ P.blocks, addr < b.addr ∨ b.addr + BLOCK_HEADER_SZ ≤ addr := by
  intro b hb
  have hbytes := b.bytes_pos
  by_contra hin
  have hcovered : b.addr ≤ addr ∧ addr < b.stop := by
    simp only [Block.stop]
    omega
  rcases allowed with hpayload | hforeign
  · obtain ⟨d, hd, hdata, hstop⟩ := inPayload_block inv.own hpayload
    simp only [Block.data] at hdata
    by_cases heq : b = d
    · subst heq
      omega
    · refine (inv.apart.forall hb hd heq).disjoint (x := addr) hcovered ⟨?_, hstop⟩
      omega
  · exact hforeign (holds.frames ▸ (inv.cover addr).mp ⟨b, hb, hcovered⟩)

theorem Holds.write {addr : Nat} {v : Byte} (holds : Holds s P)
    (outside : ∀ b ∈ P.blocks, addr < b.addr ∨ b.addr + BLOCK_HEADER_SZ ≤ addr) :
    Holds { s with mem := s.mem.write addr v } P := by
  refine ⟨holds.root, holds.laid.congr fun b hb => ?_, holds.frames⟩
  refine header_congr fun x h₁ h₂ => Mem.write_of_ne ?_
  have hout := outside b hb
  omega

/-- The heap holds the pool, and the live pointers are the pool's. -/
structure Represents (s : Session σ) (P : Pool) : Prop extends Holds s.heap P where
  live : s.live = P.live

/-- **The heap refines the pool**: every completed operation is a step of the pool. -/
theorem step_refines {s t : Session σ} {op : Op} (rep : Represents s P) (inv : P.Invariant)
    (allowed : Allowed s op) (ok : step k s op = .ok t) (hfresh : Fresh t.heap.obtained) :
    ∃ Q, P.Step op Q ∧ Represents t Q := by
  cases op with
  | malloc bytes =>
    obtain ⟨⟨ptr, heap⟩, hmalloc, ok⟩ := Except.bind_eq_ok.mp ok
    obtain rfl := Except.ok.inj ok
    obtain ⟨Q, hstep, hholds, hlive⟩ := malloc_refines rep.toHolds inv hmalloc hfresh
    refine ⟨Q, hstep, hholds, ?_⟩
    rw [hlive, ← rep.live]
  | free ptr =>
    obtain ⟨heap, hfree, ok⟩ := Except.bind_eq_ok.mp ok
    obtain rfl := Except.ok.inj ok
    obtain ⟨bytes, hmem⟩ := allowed
    obtain ⟨Q, hstep, hholds, hlive⟩ := free_refines rep.toHolds inv (rep.live ▸ hmem) hfree
    refine ⟨Q, hstep, hholds, ?_⟩
    rw [hlive, ← rep.live]
  | write addr v =>
    obtain rfl := Except.ok.inj ok
    have hallowed : InPayload s.live addr ∨ ¬ Obtained s.heap.obtained addr := allowed
    have houtside := outside_headers rep.toHolds inv (rep.live ▸ hallowed)
    exact ⟨P, .write, rep.toHolds.write houtside, rep.live⟩

end Refinement

/-! ## A run -/

section Runs

variable {s t : Session σ} {h : State σ} {P : Pool} {ops : List Op}

/-- `Heap::Heap` makes a heap of one free block over one page. -/
theorem new_holds {kernel : σ} {mem : Mem} (ok : Heap.new k kernel mem = .ok h)
    (hfresh : Fresh h.obtained) : ∃ P : Pool, Represents ⟨h, []⟩ P ∧ P.Invariant ∧
      BlocksOrdered P.blocks := by
  obtain ⟨⟨frame, kernel⟩, -, ok⟩ := Except.bind_eq_ok.mp ok
  obtain ⟨_, hnull, ok⟩ := Except.bind_eq_ok.mp ok
  obtain ⟨kernel, -, ok⟩ := Except.bind_eq_ok.mp ok
  obtain rfl := Except.ok.inj ok
  obtain ⟨b, rfl, hfree, hspan, hbytes⟩ := exists_ofPages (kassert_eq_ok.mp hnull) Nat.one_pos
    (hfresh.fits _ List.mem_cons_self)
  refine ⟨⟨[b], [(b.addr, 1)], []⟩, ⟨⟨rfl, ⟨?_, trivial⟩, rfl⟩, rfl⟩, .single hfree hspan,
    List.pairwise_singleton _ _⟩
  have hsize : PAGE_SZ - BLOCK_HEADER_SZ = b.bytes := hbytes
  have hzero : 0 < 2 ^ 64 := Nat.two_pow_pos 64
  rw [hsize, header_setBytes b.bytes_lt, header_setPrev hzero, header_setNext hzero, header_setIsFree,
    headerOf, hfree]
  rfl

theorem obtained_of_malloc {s s' : State σ} {n ptr : Nat} (ok : malloc k s n = .ok (ptr, s')) :
    ∃ more, s'.obtained = s.obtained ++ more := by
  obtain ⟨-, block, u, mem, hfind, -, rfl⟩ := malloc_ok ok
  obtain ⟨-, ⟨-, rfl⟩ | ⟨-, hgrow, -⟩⟩ := findOrGrow_ok hfind
  · exact ⟨[], (List.append_nil _).symm⟩
  · obtain ⟨_, _, _, _, _, _, -, -, -, -, -, -, rfl⟩ := grow_ok hgrow
    exact ⟨_, rfl⟩

theorem obtained_of_free {s s' : State σ} {ptr : Nat} (ok : free s ptr = .ok s') :
    s'.obtained = s.obtained := by
  by_cases hnull : ptr = 0
  · obtain rfl := Except.ok.inj ((if_pos hnull).symm.trans ok)
    rfl
  · obtain ⟨_, -, ok⟩ := Except.bind_eq_ok.mp ((if_neg hnull).symm.trans ok)
    obtain ⟨_, -, ok⟩ := Except.bind_eq_ok.mp ok
    obtain rfl := Except.ok.inj ok
    rfl

/-- Pages are obtained and never given back. -/
theorem obtained_of_step {op : Op} (ok : step k s op = .ok t) :
    ∃ more, t.heap.obtained = s.heap.obtained ++ more := by
  cases op with
  | malloc bytes =>
    obtain ⟨⟨ptr, heap⟩, hmalloc, ok⟩ := Except.bind_eq_ok.mp ok
    obtain rfl := Except.ok.inj ok
    exact obtained_of_malloc hmalloc
  | free ptr =>
    obtain ⟨heap, hfree, ok⟩ := Except.bind_eq_ok.mp ok
    obtain rfl := Except.ok.inj ok
    exact ⟨[], (obtained_of_free hfree).trans (List.append_nil _).symm⟩
  | write addr v =>
    obtain rfl := Except.ok.inj ok
    exact ⟨[], (List.append_nil _).symm⟩

theorem fresh_of_step {op : Op} (ok : step k s op = .ok t) (hfresh : Fresh t.heap.obtained) :
    Fresh s.heap.obtained := by
  obtain ⟨more, hmore⟩ := obtained_of_step ok
  rw [hmore] at hfresh
  exact hfresh.of_append

/-- The session represents a pool that the invariant holds of. -/
def Sound (s : Session σ) : Prop := ∃ P, Represents s P ∧ P.Invariant

theorem sound_of_step {op : Op} (sound : Sound s) (allowed : Allowed s op)
    (ok : step k s op = .ok t) (hfresh : Fresh t.heap.obtained) : Sound t := by
  obtain ⟨P, rep, inv⟩ := sound
  obtain ⟨Q, hstep, hrep⟩ := step_refines rep inv allowed ok hfresh
  exact ⟨Q, hrep, hstep.invariant (hrep.frames ▸ hfresh) inv⟩

/-- **Every state that a run reaches is sound**, if the pages that the heap obtained are fresh. -/
theorem sound_of_run {kernel : σ} {mem : Mem} (ok : Heap.new k kernel mem = .ok h)
    (run : Run (step k) Allowed ⟨h, []⟩ ops t) (hfresh : Fresh t.heap.obtained) : Sound t := by
  have hback : ∀ (s : Session σ) op t, step k s op = .ok t → Fresh t.heap.obtained →
      Fresh s.heap.obtained := fun _ _ _ ok => fresh_of_step ok
  have hstart := run.back (G := fun s => Fresh s.heap.obtained) hback hfresh
  refine run.invariant_within (G := fun s => Fresh s.heap.obtained) hback ?_ hfresh ?_
  · exact fun s op t sound allowed ok hfresh => sound_of_step sound allowed ok hfresh
  · obtain ⟨P, rep, inv, -⟩ := new_holds ok hstart
    exact ⟨P, rep, inv⟩

/-! ## The list in memory -/

/-- The blocks that `next` pointers lead to from `block`, up to null. -/
def Listed (m : Mem) : Nat → List Nat → Prop
  | block, [] => block = 0
  | block, b :: bs => block = b ∧ b ≠ 0 ∧ Listed m (header m b).next bs

theorem listed_of_laid {m : Mem} {p : Nat} {bs : List Block} (laid : Laid m p bs) :
    Listed m (first Block.addr 0 bs) (bs.map Block.addr) := by
  induction bs generalizing p with
  | nil => rfl
  | cons b bs ih =>
    refine ⟨rfl, b.addr_pos.ne', ?_⟩
    rw [laid.1]
    exact ih laid.2

theorem listed_unique {m : Mem} {block : Nat} {bs cs : List Nat} (hbs : Listed m block bs)
    (hcs : Listed m block cs) : bs = cs := by
  induction bs generalizing block cs with
  | nil =>
    cases cs with
    | nil => rfl
    | cons c cs =>
      obtain ⟨heq, hne, -⟩ := hcs
      exact absurd (heq.symm.trans hbs) hne
  | cons b bs ih =>
    cases cs with
    | nil =>
      obtain ⟨heq, hne, -⟩ := hbs
      exact absurd (heq.symm.trans hcs) hne
    | cons c cs =>
      obtain ⟨rfl, -, hbs⟩ := hbs
      obtain ⟨rfl, -, hcs⟩ := hcs
      rw [ih hbs hcs]

/-- The first address after the block at an address. -/
def blockEnd (m : Mem) (block : Nat) : Nat := block + BLOCK_HEADER_SZ + (header m block).bytes

theorem blockEnd_eq {m : Mem} {b : Block} {p n : Nat} (h : header m b.addr = headerOf p b n) :
    blockEnd m b.addr = b.stop := by
  rw [blockEnd, h]
  rfl

/-- The representation invariant of the heap, on the blocks `bs` of its list. -/
structure WellFormed (s : State σ) (bs : List Nat) : Prop where
  listed : Listed s.mem s.blocks bs
  acyclic : bs.Nodup
  head_prev : (header s.mem s.blocks).prev = 0
  next_prev : ∀ b ∈ bs, (header s.mem b).next ≠ 0 →
    (header s.mem (header s.mem b).next).prev = b
  prev_next : ∀ b ∈ bs, (header s.mem b).prev ≠ 0 →
    (header s.mem (header s.mem b).prev).next = b
  disjoint : bs.Pairwise fun b c => blockEnd s.mem b ≤ c ∨ blockEnd s.mem c ≤ b
  tiles : ∀ x, (∃ b ∈ bs, b ≤ x ∧ x < blockEnd s.mem b) ↔ Obtained s.obtained x
  bytes_pos : ∀ b ∈ bs, 0 < (header s.mem b).bytes
  settled : bs.IsChain fun b c => ¬ ((header s.mem b).isFree = true ∧
    (header s.mem c).isFree = true ∧ areBlocksContiguous s.mem b c = true)

/-- A block's successor points back at it, and its predecessor forward. -/
theorem linked_of_laid {m : Mem} {bs : List Block} (laid : Laid m 0 bs) {b : Block}
    (hb : b ∈ bs) :
    ((header m b.addr).next ≠ 0 → (header m (header m b.addr).next).prev = b.addr) ∧
      ((header m b.addr).prev ≠ 0 → (header m (header m b.addr).prev).next = b.addr) := by
  obtain ⟨xs, ys, rfl⟩ := List.append_of_mem hb
  have hheader := laid.record_eq
  rw [hheader]
  constructor
  · intro hnext
    cases ys with
    | nil => exact absurd rfl hnext
    | cons d zs =>
      have hd : header m d.addr = headerOf b.addr d (first Block.addr 0 zs) :=
        (Linked.chain_append.mp laid).2.2.1
      exact congrArg BlockHeader.prev hd
  · intro hprev
    rcases List.eq_nil_or_concat xs with rfl | ⟨ws, a, rfl⟩
    · exact absurd rfl hprev
    · rw [List.concat_eq_append] at laid ⊢
      have ha : header m a.addr = headerOf (last Block.addr 0 ws) a b.addr := by
        rw [← List.append_cons] at laid
        exact laid.record_eq
      simp only [headerOf, Linked.last_append_singleton, ha]

theorem Represents.wellFormed (rep : Represents s P) (inv : P.Invariant) :
    WellFormed s.heap (P.blocks.map Block.addr) where
  listed := by
    rw [rep.root]
    exact listed_of_laid rep.laid
  acyclic := nodup_addr inv.apart
  head_prev := by
    have hlaid := rep.laid
    obtain ⟨b, bs, hblocks⟩ := List.exists_cons_of_ne_nil (first_ne_zero.mp inv.nonnull)
    rw [hblocks] at hlaid
    rw [rep.root, hblocks]
    exact congrArg BlockHeader.prev hlaid.1
  next_prev := by
    intro block hblock
    obtain ⟨b, hb, rfl⟩ := List.mem_map.mp hblock
    exact (linked_of_laid rep.laid hb).1
  prev_next := by
    intro block hblock
    obtain ⟨b, hb, rfl⟩ := List.mem_map.mp hblock
    exact (linked_of_laid rep.laid hb).2
  disjoint := by
    refine List.pairwise_map.mpr (inv.apart.imp_of_mem fun hb hc h => ?_)
    obtain ⟨_, _, hb⟩ := rep.laid.header_eq hb
    obtain ⟨_, _, hc⟩ := rep.laid.header_eq hc
    rw [blockEnd_eq hb, blockEnd_eq hc]
    exact h
  tiles := by
    intro x
    rw [rep.frames]
    refine Iff.trans ?_ (inv.cover x)
    constructor
    · rintro ⟨block, hblock, hlo, hhi⟩
      obtain ⟨b, hb, rfl⟩ := List.mem_map.mp hblock
      obtain ⟨_, _, hheader⟩ := rep.laid.header_eq hb
      exact ⟨b, hb, hlo, blockEnd_eq hheader ▸ hhi⟩
    · rintro ⟨b, hb, hlo, hhi⟩
      obtain ⟨_, _, hheader⟩ := rep.laid.header_eq hb
      exact ⟨b.addr, List.mem_map_of_mem hb, hlo, (blockEnd_eq hheader).symm ▸ hhi⟩
  bytes_pos := by
    intro block hblock
    obtain ⟨b, hb, rfl⟩ := List.mem_map.mp hblock
    obtain ⟨_, _, hheader⟩ := rep.laid.header_eq hb
    rw [hheader]
    exact b.bytes_pos
  settled := by
    refine (List.isChain_map _).mpr (inv.settled.imp_of_mem_imp fun b c hb hc hnot h => hnot ?_)
    obtain ⟨_, _, hb⟩ := rep.laid.header_eq hb
    obtain ⟨_, _, hc⟩ := rep.laid.header_eq hc
    rw [areBlocksContiguous_iff hb, hb, hc] at h
    exact h

/-- **The representation invariant.** After every operation of a run the list is doubly linked,
ends, and tiles the obtained pages; no block is empty, and no block is free before a free one
that it meets. -/
theorem heap_wellFormed {kernel : σ} {mem : Mem} (ok : Heap.new k kernel mem = .ok h)
    (run : Run (step k) Allowed ⟨h, []⟩ ops t) (hfresh : Fresh t.heap.obtained) :
    ∃ bs, WellFormed t.heap bs := by
  obtain ⟨P, rep, inv⟩ := sound_of_run ok run hfresh
  exact ⟨P.blocks.map Block.addr, rep.wellFormed inv⟩

/-- A kernel that hands out the page ranges of a list, in turn. -/
def tapeKernel : Kernel (List Nat) where
  requestFrame
    | [] => .ok (0, [])
    | frame :: rest => .ok (frame, rest)
  requestFrames _
    | [] => .ok (0, [])
    | frame :: rest => .ok (frame, rest)
  allocatePage _ _ kernel := .ok kernel

/-- A new heap at 0x1000, before two more pages at 0x2000. -/
def firstHeap : State (List Nat) where
  blocks := 0x1000
  mem := setBytes (setPrev (setNext (setIsFree (fun _ => 0) 0x1000 true) 0x1000 0) 0x1000 0)
    0x1000 4064
  kernel := [0x2000]
  obtained := [(0x1000, 1)]

theorem new_firstHeap : Heap.new tapeKernel [0x1000, 0x2000] (fun _ => 0) = .ok firstHeap := rfl

theorem small_fresh : Fresh [(0x1000, 1), (0x2000, 2)] where
  apart := by
    refine List.pairwise_pair.mpr (.inl ?_)
    show 0x1000 + 1 * PAGE_SZ ≤ 0x2000
    decide
  fits := by decide

/-- Two allocations, of which the second grows the heap, and one freed. -/
theorem small_run : ∃ t, Run (step tapeKernel) Allowed ⟨firstHeap, []⟩
    [.malloc 10, .malloc 5000, .free 0x2020] t ∧
      (t.live, t.heap.obtained) = ([(0x1020, 10)], [(0x1000, 1), (0x2000, 2)]) :=
  Run.of_exec_map (by decide +kernel)

theorem small_heap_wellFormed : ∃ t, Run (step tapeKernel) Allowed ⟨firstHeap, []⟩
    [.malloc 10, .malloc 5000, .free 0x2020] t ∧ Fresh t.heap.obtained ∧
      ∃ bs, WellFormed t.heap bs := by
  obtain ⟨t, run, ht⟩ := small_run
  have hfresh : Fresh t.heap.obtained := (Prod.mk.inj ht).2 ▸ small_fresh
  exact ⟨t, run, hfresh, heap_wellFormed new_firstHeap run hfresh⟩

/-! ## Live allocations -/

/-- Two live allocations lie in the data of two blocks. -/
theorem live_disjoint {live : List (Nat × Nat)} {bs : List Block} (own : Owns live bs)
    (apart : BlocksApart bs) :
    live.Pairwise fun a b => a.1 + a.2 ≤ b.1 ∨ b.1 + b.2 ≤ a.1 := by
  have hnodup := own.owners.nodup_iff.mpr (nodup_allocated apart)
  refine (List.pairwise_map.mp hnodup).imp_of_mem fun {a b} ha hb hne => ?_
  obtain ⟨d, hd, -, hda, hroom⟩ := own.room a ha
  obtain ⟨e, he, -, heb, hroom'⟩ := own.room b hb
  have hde : d ≠ e := by
    rintro rfl
    exact hne (hda.symm.trans heb)
  have hapart := apart.forall hd he hde
  simp only [Apart, Before, Block.stop, Block.data] at hapart hda heb
  omega

/-- No live allocation reaches into a header. -/
theorem live_outside_headers {live : List (Nat × Nat)} {bs : List Block} (own : Owns live bs)
    (apart : BlocksApart bs) {a : Nat × Nat} (ha : a ∈ live) {b : Block} (hb : b ∈ bs) :
    a.1 + a.2 ≤ b.addr ∨ b.addr + BLOCK_HEADER_SZ ≤ a.1 := by
  obtain ⟨d, hd, -, hda, hroom⟩ := own.room a ha
  simp only [Block.data] at hda
  by_cases hdb : d = b
  · subst hdb
    omega
  · have hapart := apart.forall hd hb hdb
    simp only [Apart, Before, Block.stop] at hapart
    omega

/-- **Live allocations are separate.** After every operation of a run, the live allocations are
pairwise disjoint, lie in pages that the heap obtained, and overlap no header of the list, and
`get_heap_stats` returns and reports as many allocated blocks as there are live pointers. -/
theorem live_allocations_separate {kernel : σ} {mem : Mem} (ok : Heap.new k kernel mem = .ok h)
    (run : Run (step k) Allowed ⟨h, []⟩ ops t) (hfresh : Fresh t.heap.obtained) :
    (t.live.Pairwise fun a b => a.1 + a.2 ≤ b.1 ∨ b.1 + b.2 ≤ a.1) ∧
      (∀ x, InPayload t.live x → Obtained t.heap.obtained x) ∧
      (∃ bs, Listed t.heap.mem t.heap.blocks bs ∧
        ∀ a ∈ t.live, ∀ b ∈ bs, a.1 + a.2 ≤ b ∨ b + BLOCK_HEADER_SZ ≤ a.1) ∧
      ∃ stats, getHeapStats t.heap.mem t.heap.blocks = .ok stats ∧
        stats.allocatedBlocks = t.live.length := by
  obtain ⟨P, rep, inv⟩ := sound_of_run ok run hfresh
  have hown := inv.own
  rw [← rep.live] at hown
  have hstats := getHeapStats_eq rep.laid inv.apart
  rw [← rep.root] at hstats
  refine ⟨live_disjoint hown inv.apart, ?_, ⟨_, (rep.wellFormed inv).listed, ?_⟩, _, hstats, ?_⟩
  · intro x hx
    obtain ⟨b, hb, hlo, hhi⟩ := inPayload_block hown hx
    have haddr : b.addr ≤ b.data := Nat.le_add_right _ _
    have hcover := (inv.cover x).mp ⟨b, hb, Nat.le_trans haddr hlo, hhi⟩
    rw [← rep.frames] at hcover
    exact hcover
  · intro a ha block hblock
    obtain ⟨b, hb, rfl⟩ := List.mem_map.mp hblock
    exact live_outside_headers hown inv.apart ha hb
  · have hlength := hown.owners.length_eq
    rw [List.length_map] at hlength
    exact hlength.symm

theorem small_live_separate : ∃ t, Run (step tapeKernel) Allowed ⟨firstHeap, []⟩
    [.malloc 10, .malloc 5000, .free 0x2020] t ∧ Fresh t.heap.obtained ∧
      t.live = [(0x1020, 10)] ∧ ∃ stats, getHeapStats t.heap.mem t.heap.blocks = .ok stats ∧
        stats.allocatedBlocks = 1 := by
  obtain ⟨t, run, ht⟩ := small_run
  obtain ⟨hlive, hobtained⟩ := Prod.mk.inj ht
  have hfresh : Fresh t.heap.obtained := hobtained ▸ small_fresh
  obtain ⟨-, -, -, stats, hstats, hcount⟩ := live_allocations_separate new_firstHeap run hfresh
  rw [hlive] at hcount
  exact ⟨t, run, hfresh, hlive, stats, hstats, hcount⟩

/-! ## Address order -/

/-- What address order gives: the list has increasing addresses, no free block begins where
another ends, and once nothing is live each range of obtained pages that cannot be made longer is
one free block. -/
structure Coalesced (s : Session σ) (bs : List Nat) : Prop where
  listed : Listed s.heap.mem s.heap.blocks bs
  increasing : bs.Pairwise (· < ·)
  unmergeable : ∀ b ∈ bs, ∀ c ∈ bs, ¬ ((header s.heap.mem b).isFree = true ∧
    (header s.heap.mem c).isFree = true ∧ blockEnd s.heap.mem b = c)
  whole : s.live = [] → ∀ lo hi, lo < hi → (∀ x, lo ≤ x → x < hi → Obtained s.heap.obtained x) →
    (∀ x, x + 1 = lo → ¬ Obtained s.heap.obtained x) → ¬ Obtained s.heap.obtained hi →
    lo ∈ bs ∧ (header s.heap.mem lo).isFree = true ∧ blockEnd s.heap.mem lo = hi

/-- A `malloc` that has to grow the heap finds one block in the list. -/
def GrowsAlone (s : Session σ) : Op → Prop
  | .malloc bytes => findFreeBlock s.heap.mem s.heap.blocks bytes = .ok 0 →
    (header s.heap.mem s.heap.blocks).next = 0
  | _ => True

theorem Represents.coalesced (rep : Represents s P) (inv : P.Invariant)
    (ordered : BlocksOrdered P.blocks) : Coalesced s (P.blocks.map Block.addr) where
  listed := (rep.wellFormed inv).listed
  increasing := List.pairwise_map.mpr (ordered.imp fun {b _} h => lt_of_lt_of_le b.addr_lt_stop h)
  unmergeable := by
    intro block hblock other hother h
    obtain ⟨b, hb, rfl⟩ := List.mem_map.mp hblock
    obtain ⟨c, hc, rfl⟩ := List.mem_map.mp hother
    obtain ⟨_, _, hb'⟩ := rep.laid.header_eq hb
    obtain ⟨_, _, hc'⟩ := rep.laid.header_eq hc
    rw [blockEnd_eq hb', hb', hc'] at h
    exact inv.not_mergeable ordered hb hc h
  whole := by
    intro hlive lo hi hlt inside below beyond
    rw [rep.frames] at inside below beyond
    obtain ⟨b, hb, hfree, rfl, hstop⟩ :=
      inv.maximal ordered (rep.live.symm.trans hlive) hlt inside below beyond
    obtain ⟨_, _, hheader⟩ := rep.laid.header_eq hb
    refine ⟨List.mem_map_of_mem hb, ?_, (blockEnd_eq hheader).trans hstop⟩
    rw [hheader]
    exact hfree

/-- Increasing addresses put blocks that are apart in order. -/
theorem Represents.ordered_of_coalesced {bs : List Nat} (rep : Represents s P) (inv : P.Invariant)
    (h : Coalesced s bs) : BlocksOrdered P.blocks := by
  have hincreasing := h.increasing
  rw [listed_unique h.listed (rep.wellFormed inv).listed] at hincreasing
  refine (inv.apart.and (List.pairwise_map.mp hincreasing)).imp fun {b c} h => ?_
  have hc := c.addr_lt_stop
  rcases h.1 with h' | h'
  · exact h'
  · have hlt := h.2
    simp only [Before] at h'
    omega

theorem Holds.findFreeBlock_eq_zero {s : State σ} (holds : Holds s P) (inv : P.Invariant)
    (n : Nat) : findFreeBlock s.mem s.blocks n = .ok 0 ↔ P.Full n := by
  rw [holds.root, findFreeBlock_eq holds.laid inv.apart (first_ne_zero.mp inv.nonnull)]
  constructor
  · intro h a ha hfit
    cases hfind : P.blocks.find? (fits n) with
    | none => exact List.find?_eq_none.mp hfind a ha (fits_eq_true.mpr hfit)
    | some b =>
      rw [hfind] at h
      exact b.addr_pos.ne' (Except.ok.inj h)
  · intro hfull
    have hnone : P.blocks.find? (fits n) = none :=
      List.find?_eq_none.mpr fun a ha hfit => hfull a ha (fits_eq_true.mp hfit)
    rw [hnone]
    rfl

theorem Represents.next_eq_zero (rep : Represents s P) (inv : P.Invariant) :
    (header s.heap.mem s.heap.blocks).next = 0 ↔ P.blocks.length = 1 := by
  have hlaid := rep.laid
  obtain ⟨b, bs, hblocks⟩ := List.exists_cons_of_ne_nil (first_ne_zero.mp inv.nonnull)
  rw [hblocks] at hlaid
  rw [rep.root, hblocks, Linked.first_cons, hlaid.1]
  cases bs with
  | nil => exact iff_of_true rfl rfl
  | cons c cs => exact iff_of_false c.addr_pos.ne' (by simp)

/-- The condition on `malloc` in terms of the pool. -/
theorem Represents.growsAlone_iff {op : Op} (rep : Represents s P) (inv : P.Invariant) :
    GrowsAlone s op ↔ ∀ n, op = .malloc n → P.Full n → P.blocks.length = 1 := by
  cases op with
  | malloc bytes =>
    rw [GrowsAlone, rep.toHolds.findFreeBlock_eq_zero inv, rep.next_eq_zero inv]
    constructor
    · rintro h n heq
      cases heq
      exact h
    · exact fun h => h bytes rfl
  | free ptr => exact iff_of_true trivial fun n h => by cases h
  | write addr v => exact iff_of_true trivial fun n h => by cases h

/-- What the laws about address order ask of the obtained pages. -/
def FreshAbove (s : Session σ) : Prop := Fresh s.heap.obtained ∧ Above s.heap.obtained

theorem freshAbove_of_step {op : Op} (ok : step k s op = .ok t) (h : FreshAbove t) :
    FreshAbove s := by
  obtain ⟨more, hmore⟩ := obtained_of_step ok
  have habove := h.2
  rw [hmore] at habove
  exact ⟨fresh_of_step ok h.1, habove.of_append⟩

/-- **One operation keeps address order exactly when it does not grow a longer list.** -/
theorem coalesced_step_iff {op : Op} (sound : Sound s) (coalesced : ∃ bs, Coalesced s bs)
    (allowed : Allowed s op) (ok : step k s op = .ok t) (hpages : FreshAbove t) :
    (∃ bs, Coalesced t bs) ↔ GrowsAlone s op := by
  obtain ⟨P, rep, inv⟩ := sound
  obtain ⟨bs, hbs⟩ := coalesced
  have hordered := rep.ordered_of_coalesced inv hbs
  obtain ⟨Q, hstep, rep'⟩ := step_refines rep inv allowed ok hpages.1
  obtain ⟨hfresh, habove⟩ := hpages
  rw [rep'.frames] at hfresh habove
  have inv' := hstep.invariant hfresh inv
  rw [rep.growsAlone_iff inv, ← hstep.ordered_iff inv hfresh habove hordered]
  constructor
  · rintro ⟨cs, hcs⟩
    exact rep'.ordered_of_coalesced inv' hcs
  · intro h
    exact ⟨_, rep'.coalesced inv' h⟩

/-- Runs that keep to the condition stay coalesced. -/
theorem coalesced_of_run
    (run : Run (step k) (fun s op => Allowed s op ∧ GrowsAlone s op) s ops t)
    (hpages : FreshAbove t) (sound : Sound s) (coalesced : ∃ bs, Coalesced s bs) :
    ∃ bs, Coalesced t bs := by
  have hrun := run.invariant_within (P := fun s => Sound s ∧ ∃ bs, Coalesced s bs)
    (fun _ _ _ ok => freshAbove_of_step ok) ?_ hpages ⟨sound, coalesced⟩
  · exact hrun.2
  · rintro s op t ⟨sound, coalesced⟩ ⟨allowed, alone⟩ ok hpages
    exact ⟨sound_of_step sound allowed ok hpages.1,
      (coalesced_step_iff sound coalesced allowed ok hpages).mpr alone⟩

/-- Runs that stay coalesced keep to the condition. -/
theorem growsAlone_of_run (run : Run (step k) Allowed s ops t) (hpages : FreshAbove t)
    (sound : Sound s) (coalesced : ∀ pre post u, ops = pre ++ post →
      Run (step k) Allowed s pre u → ∃ bs, Coalesced u bs) :
    Run (step k) (fun s op => Allowed s op ∧ GrowsAlone s op) s ops t := by
  induction run with
  | nil s => exact .nil s
  | @cons s u t op ops allowed ok rest ih =>
    have hpages_u : FreshAbove u := rest.back (fun _ _ _ ok => freshAbove_of_step ok) hpages
    have hstart := coalesced [] _ s rfl (.nil s)
    have hnext := coalesced [op] ops u rfl (.cons allowed ok (.nil u))
    have halone := (coalesced_step_iff sound hstart allowed ok hpages_u).mp hnext
    refine .cons ⟨allowed, halone⟩ ok (ih hpages (sound_of_step sound allowed ok hpages_u.1) ?_)
    intro pre post v hsplit hrun
    exact coalesced (op :: pre) post v (congrArg (op :: ·) hsplit) (.cons allowed ok hrun)

/-- **Address order over runs.** If the heap's pages are fresh and all above the first one, then
every state of a run is coalesced exactly when every `malloc` of the run that has to grow the
heap does so while the list has one block. -/
theorem coalesced_iff {kernel : σ} {mem : Mem} (ok : Heap.new k kernel mem = .ok h)
    (run : Run (step k) Allowed ⟨h, []⟩ ops t) (hpages : FreshAbove t) :
    (∀ pre post u, ops = pre ++ post → Run (step k) Allowed ⟨h, []⟩ pre u →
        ∃ bs, Coalesced u bs) ↔
      Run (step k) (fun s op => Allowed s op ∧ GrowsAlone s op) ⟨h, []⟩ ops t := by
  have hback : ∀ (s : Session σ) op t, step k s op = .ok t → FreshAbove t → FreshAbove s :=
    fun _ _ _ ok => freshAbove_of_step ok
  have hstart : FreshAbove ⟨h, []⟩ := run.back hback hpages
  obtain ⟨P, rep, inv, hordered⟩ := new_holds ok hstart.1
  have sound : Sound ⟨h, []⟩ := ⟨P, rep, inv⟩
  constructor
  · exact growsAlone_of_run run hpages sound
  · intro hrun pre post u hsplit hpre
    rw [hsplit] at hrun
    obtain ⟨v, hfirst, hsecond⟩ := hrun.append_inv
    obtain rfl := hpre.unique hfirst
    exact coalesced_of_run hfirst (hsecond.back hback hpages) sound ⟨_, rep.coalesced inv hordered⟩

instance (s : Session σ) : (op : Op) → Decidable (GrowsAlone s op)
  | .malloc bytes => inferInstanceAs (Decidable
    (findFreeBlock s.heap.mem s.heap.blocks bytes = .ok 0 → _))
  | .free _ => isTrue trivial
  | .write _ _ => isTrue trivial

theorem small_above : Above [(0x1000, 1), (0x2000, 2)] := by
  unfold Above
  decide

/-- The heap grows while its list is one block, and stays coalesced. -/
theorem small_heap_coalesced : ∃ t, Run (step tapeKernel) Allowed ⟨firstHeap, []⟩
    [.malloc 10, .free 0x1020, .malloc 5000] t ∧ FreshAbove t ∧ ∃ bs, Coalesced t bs := by
  obtain ⟨t, run, ht⟩ : ∃ t, Run (step tapeKernel) (fun s op => Allowed s op ∧ GrowsAlone s op)
      ⟨firstHeap, []⟩ [.malloc 10, .free 0x1020, .malloc 5000] t ∧
        t.heap.obtained = [(0x1000, 1), (0x2000, 2)] := Run.of_exec_map (by decide +kernel)
  have hrun := run.mono fun _ _ h => h.1
  have hpages : FreshAbove t := ⟨ht ▸ small_fresh, ht ▸ small_above⟩
  exact ⟨t, hrun, hpages,
    (coalesced_iff new_firstHeap hrun hpages).mpr run _ [] t (List.append_nil _).symm hrun⟩

/-- The heap grows while its list is two blocks. The new block is put between them although it is
above both, and when everything is freed three free blocks are left of one page range: the third
of the list ends at 0x2000, where the second begins. -/
theorem small_heap_not_coalesced :
    Heap.new tapeKernel [0x1000, 0x2000] (fun _ => 0) = .ok firstHeap ∧
      ∃ t, Run (step tapeKernel) Allowed ⟨firstHeap, []⟩
        [.malloc 10, .malloc 5000, .free 0x2020, .free 0x1020] t ∧ FreshAbove t ∧ t.live = [] ∧
        Listed t.heap.mem t.heap.blocks [0x1000, 0x2000, 0x102a] ∧
        (header t.heap.mem 0x102a).isFree = true ∧ (header t.heap.mem 0x2000).isFree = true ∧
        blockEnd t.heap.mem 0x102a = 0x2000 ∧ ¬ ∃ bs, Coalesced t bs := by
  obtain ⟨t, run, ht⟩ : ∃ t, Run (step tapeKernel) Allowed ⟨firstHeap, []⟩
      [.malloc 10, .malloc 5000, .free 0x2020, .free 0x1020] t ∧
        (t.live, t.heap.obtained, t.heap.blocks, header t.heap.mem 0x1000,
          header t.heap.mem 0x2000, header t.heap.mem 0x102a) =
        ([], [(0x1000, 1), (0x2000, 2)], 0x1000, ⟨0, 0x2000, true, 10⟩,
          ⟨0x1000, 0x102a, true, 8160⟩, ⟨0x2000, 0, true, 4022⟩) :=
    Run.of_exec_map (by decide +kernel)
  simp only [Prod.mk.injEq] at ht
  obtain ⟨hlive, hobtained, hblocks, hfirst, hsecond, hthird⟩ := ht
  have hlisted : Listed t.heap.mem t.heap.blocks [0x1000, 0x2000, 0x102a] := by
    simp only [Listed, hblocks, hfirst, hsecond, hthird]
    decide
  refine ⟨new_firstHeap, t, run, ⟨hobtained ▸ small_fresh, hobtained ▸ small_above⟩, hlive,
    hlisted, ?_, ?_, ?_, ?_⟩
  · rw [hthird]
  · rw [hsecond]
  · rw [blockEnd, hthird]
    rfl
  · rintro ⟨bs, hbs⟩
    have hincreasing := hbs.increasing
    rw [listed_unique hbs.listed hlisted] at hincreasing
    exact absurd hincreasing (by decide)

end Runs

end PrintOS.Heap
