import PrintOS.Laws.Memory.HeapRun

/-!
# When the operations of the heap complete

The laws of `HeapRun` are about operations that complete. Here it is settled when they do, in every
state that a run reaches.

* `free` of a live pointer stops on a null pointer where it merges the block with the one before it
  and no block is left after the two: `block->next->prev` is written without a test
  (`free_completes_iff`).
* `malloc` that has to grow the heap asks for `bytes / PAGE_SZ + 1` pages, and the new block's header
  comes out of these. It is large enough unless fewer than a header's bytes of the last page are
  left over (`malloc_completes_iff`).
* `malloc` that finds a free block, and `free` of what it returned, complete and leave the list as it
  was (`malloc_free_restores`).
-/

namespace PrintOS.Heap

open ByteMemory (Mem Byte)
open Linked (first last)

variable {σ : Type} {k : Kernel σ}

/-! ## `free` -/

/-- The block before this one is free and ends where it begins. -/
def MergesBack (m : Mem) (block : Nat) : Prop :=
  (header m block).prev ≠ 0 ∧ (header m (header m block).prev).isFree = true ∧
    areBlocksContiguous m (header m block).prev block = true

/-- No block comes after this one, or only a last one that is free and begins where it ends. -/
def EndsList (m : Mem) (block : Nat) : Prop :=
  (header m block).next = 0 ∨
    ((header m (header m block).next).isFree = true ∧
      areBlocksContiguous m block (header m block).next = true ∧
      (header m (header m block).next).next = 0)

section Free

variable {m : Mem} {p : Nat} {a b : Block} {xs ys : List Block}

theorem not_mergesBack_first (h : Laid m 0 (b :: ys)) : ¬ MergesBack m b.addr := by
  rw [MergesBack, h.1]
  exact fun hback => hback.1 rfl

theorem mergesBack_iff (h : Laid m p (xs ++ a :: b :: ys)) :
    MergesBack m b.addr ↔ Mergeable a (b.mark true) := by
  have hprev : header m a.addr = headerOf (last Block.addr p xs) a b.addr := h.record_eq
  have hheader : header m b.addr = headerOf a.addr b (first Block.addr 0 ys) :=
    (Linked.chain_append.mp h).2.2.1
  have hback : (header m b.addr).prev = a.addr := by
    rw [hheader]
    rfl
  rw [MergesBack, hback, areBlocksContiguous_iff hprev, hprev]
  constructor
  · rintro ⟨-, hfree, hmeet⟩
    exact ⟨hfree, rfl, hmeet⟩
  · rintro ⟨hfree, -, hmeet⟩
    exact ⟨a.addr_pos.ne', hfree, hmeet⟩

theorem endsList_iff (h : Laid m p (xs ++ b :: ys)) :
    EndsList m b.addr ↔ (join (b.mark true) ys).length = 1 := by
  have hheader := h.record_eq
  have hnext : (header m b.addr).next = first Block.addr 0 ys := by
    rw [hheader]
    rfl
  rw [EndsList, hnext]
  cases ys with
  | nil => exact iff_of_true (.inl rfl) rfl
  | cons c zs =>
    have hc : header m c.addr = headerOf b.addr c (first Block.addr 0 zs) :=
      (Linked.chain_append.mp h).2.2.1
    have hlast : (header m c.addr).next = 0 ↔ zs = [] := by
      rw [hc, ← not_iff_not]
      exact first_ne_zero
    rw [Linked.first_cons, areBlocksContiguous_iff hheader, hlast, hc, join]
    by_cases hmerge : Mergeable (b.mark true) c
    · rw [dif_pos hmerge, List.length_cons, Nat.add_eq_right, List.length_eq_zero_iff]
      constructor
      · rintro (hnull | ⟨-, -, hzs⟩)
        · exact absurd hnull c.addr_pos.ne'
        · exact hzs
      · exact fun hzs => .inr ⟨hmerge.2.1, hmerge.2.2, hzs⟩
    · rw [dif_neg hmerge]
      refine iff_of_false ?_ (by simp)
      rintro (hnull | ⟨hfree, hmeet, -⟩)
      · exact c.addr_pos.ne' hnull
      · exact hmerge ⟨rfl, hfree, hmeet⟩

end Free

section Runs

variable {s t : Session σ} {h : State σ} {P : Pool} {ops : List Op}

/-- **When `free` completes.** In every state that a run reaches, `free` of a live pointer completes
exactly when it does not merge the pointer's block into the one before it at the end of the list. -/
theorem free_completes_iff {kernel : σ} {mem : Mem} {ptr bytes : Nat}
    (ok : Heap.new k kernel mem = .ok h) (run : Run (step k) Allowed ⟨h, []⟩ ops t)
    (hfresh : Fresh t.heap.obtained) (live : (ptr, bytes) ∈ t.live) :
    (∃ heap, free t.heap ptr = .ok heap) ↔
      ¬ (MergesBack t.heap.mem (sub64 ptr BLOCK_HEADER_SZ) ∧
        EndsList t.heap.mem (sub64 ptr BLOCK_HEADER_SZ)) := by
  obtain ⟨⟨blocks, frames, owned⟩, rep, inv⟩ := sound_of_run ok run hfresh
  rw [rep.live] at live
  obtain ⟨b, hb, -, hdata, -⟩ := inv.own.room _ live
  obtain rfl : b.data = ptr := hdata
  obtain ⟨xs, ys, hsplit⟩ := List.append_of_mem hb
  obtain rfl : blocks = xs ++ b :: ys := hsplit
  have hlaid := rep.laid
  have hapart := inv.apart
  rw [sub64_data]
  rcases List.eq_nil_or_concat xs with rfl | ⟨ws, a, rfl⟩
  · obtain ⟨mem, hfree, -⟩ := free_first hlaid hapart
    exact iff_of_true ⟨_, hfree⟩ fun hstops => not_mergesBack_first hlaid hstops.1
  · rw [endsList_iff hlaid]
    rw [List.concat_eq_append, ← List.append_cons] at hlaid hapart
    rw [mergesBack_iff hlaid]
    rcases free_later hlaid hapart with ⟨hstops, herror⟩ | ⟨hgoes, mem, hfree, -⟩
    · refine iff_of_false ?_ (not_not.mpr hstops)
      rintro ⟨heap, hfree⟩
      rw [herror] at hfree
      cases hfree
    · exact iff_of_true ⟨_, hfree⟩ hgoes

instance (m : Mem) (block : Nat) : Decidable (MergesBack m block) :=
  inferInstanceAs (Decidable (_ ∧ _ ∧ _))

/-- The first block of the list is freed. -/
theorem small_free_completes : ∃ t, Run (step tapeKernel) Allowed ⟨firstHeap, []⟩
    [.malloc 10, .malloc 5000, .free 0x2020] t ∧ Fresh t.heap.obtained ∧
      (0x1020, 10) ∈ t.live ∧ ∃ heap, free t.heap 0x1020 = .ok heap := by
  obtain ⟨t, run, ht⟩ : ∃ t, Run (step tapeKernel) Allowed ⟨firstHeap, []⟩
      [.malloc 10, .malloc 5000, .free 0x2020] t ∧
        (t.live, t.heap.obtained, decide (MergesBack t.heap.mem 0x1000)) =
          ([(0x1020, 10)], [(0x1000, 1), (0x2000, 2)], false) :=
    Run.of_exec_map (by decide +kernel)
  simp only [Prod.mk.injEq, decide_eq_false_iff_not] at ht
  obtain ⟨hlive, hobtained, hback⟩ := ht
  have hfresh : Fresh t.heap.obtained := hobtained ▸ small_fresh
  have hmem : (0x1020, 10) ∈ t.live := hlive ▸ List.mem_cons_self
  refine ⟨t, run, hfresh, hmem, ?_⟩
  rw [free_completes_iff new_firstHeap run hfresh hmem]
  exact fun hstops => hback hstops.1

/-- The last block of the list is freed after the one before it: the merge of the two follows the
null pointer at the end of the list. -/
theorem small_free_stops : ∃ t, Run (step tapeKernel) Allowed ⟨firstHeap, []⟩
    [.malloc 10, .malloc 4022, .free 0x1020] t ∧ Fresh t.heap.obtained ∧
      (0x104a, 4022) ∈ t.live ∧ free t.heap 0x104a = .error .nullDeref := by
  obtain ⟨t, run, ht⟩ : ∃ t, Run (step tapeKernel) Allowed ⟨firstHeap, []⟩
      [.malloc 10, .malloc 4022, .free 0x1020] t ∧
        (t.live, t.heap.obtained, (free t.heap 0x104a).map fun _ => ()) =
          ([(0x104a, 4022)], [(0x1000, 1)], .error .nullDeref) :=
    Run.of_exec_map (by decide +kernel)
  simp only [Prod.mk.injEq] at ht
  obtain ⟨hlive, hobtained, hfree⟩ := ht
  refine ⟨t, run, ?_, hlive ▸ List.mem_cons_self, ?_⟩
  · rw [hobtained]
    exact ⟨List.pairwise_singleton _ _, by decide⟩
  · cases hresult : free t.heap 0x104a with
    | ok heap =>
      rw [hresult] at hfree
      cases hfree
    | error fault =>
      rw [hresult] at hfree
      cases hfree
      rfl

/-! ## `malloc` -/

/-- The allocated block, at its data less the header, has the size that was asked for. -/
theorem allocate_enough {m : Mem} {p n : Nat} {b : Block} {xs ys : List Block} {pos : 0 < n}
    (hlaid : Laid m p (xs ++ b.allocate n pos ++ ys)) (enough : n ≤ b.bytes) :
    n ≤ (header m (sub64 b.data BLOCK_HEADER_SZ)).bytes := by
  obtain ⟨d, hd, -, hdata, hroom⟩ := @mem_allocate b n pos enough
  have hmem : d ∈ xs ++ b.allocate n pos ++ ys :=
    List.mem_append_left _ (List.mem_append_right _ hd)
  obtain ⟨_, _, hheader⟩ := hlaid.header_eq hmem
  rw [← hdata, sub64_data, hheader]
  exact hroom

/-- The new block is large enough unless the last page has less left over than a header takes. -/
theorem fresh_enough_iff {fresh : Block} {n : Nat}
    (span : fresh.stop = rangeEnd (fresh.addr, n / PAGE_SZ + 1)) :
    n ≤ fresh.bytes ↔ n % PAGE_SZ ≤ PAGE_SZ - BLOCK_HEADER_SZ := by
  simp only [Block.stop, rangeEnd, PAGE_SZ, FRAME_SZ, BLOCK_HEADER_SZ] at span ⊢
  omega

/-- A completed `malloc` that had to grow the heap has mapped its pages and found its block large
enough. -/
theorem malloc_grown {s s' : State σ} {n ptr frame : Nat} {granted : σ} (holds : Holds s P)
    (inv : P.Invariant) (hfull : findFreeBlock s.mem s.blocks n = .ok 0)
    (hrequest : k.requestFrames (n / PAGE_SZ + 1) s.kernel = .ok (frame, granted))
    (hfresh : Fresh (s.obtained ++ [(frame, n / PAGE_SZ + 1)]))
    (ok : malloc k s n = .ok (ptr, s')) :
    n % PAGE_SZ ≤ PAGE_SZ - BLOCK_HEADER_SZ ∧
      ∃ mapped, allocatePages k frame (n / PAGE_SZ + 1) granted = .ok mapped := by
  obtain ⟨block, grown, mem, hfind, hgrow, rfl⟩ := grow_of_malloc hfull ok
  obtain ⟨_, _, _, mapped, _, _, hrequest', hmap, -, -, -, -, hgrown⟩ := grow_ok hgrow
  obtain ⟨rfl, rfl⟩ := Prod.mk.inj (Except.ok.inj (hrequest'.symm.trans hrequest))
  refine ⟨?_, mapped, hmap⟩
  have hobtained : grown.obtained = s.obtained ++ [(_, n / PAGE_SZ + 1)] :=
    congrArg State.obtained hgrown
  rcases findOrGrow_spec holds inv hfind (hobtained ▸ hfresh) with
    ⟨xs, b, ys, hsplit, free, enough, -⟩ | ⟨_, _, _, fresh, -, -, enough, span, -⟩
  · -- the first search found nothing
    have hb : b ∈ P.blocks := hsplit ▸ List.mem_append_right _ List.mem_cons_self
    exact absurd ⟨free, enough⟩ ((holds.findFreeBlock_eq_zero inv n).mp hfull b hb)
  · exact (fresh_enough_iff span).mp enough

/-- `malloc` on a heap that has a free block that is large enough allocates such a block. -/
theorem malloc_takes {s : State σ} {n : Nat} (holds : Holds s P) (inv : P.Invariant) (pos : 0 < n)
    (hfit : findFreeBlock s.mem s.blocks n ≠ .ok 0) :
    ∃ xs b ys mem, P.blocks = xs ++ b :: ys ∧ b.isFree = true ∧ n ≤ b.bytes ∧
      malloc k s n = .ok (b.data, { s with mem }) ∧ Laid mem 0 (xs ++ b.allocate n pos ++ ys) := by
  have hfind := @findFreeBlock_eq _ n _ _ holds.laid inv.apart (first_ne_zero.mp inv.nonnull)
  rw [← holds.root] at hfind
  cases hsearch : P.blocks.find? (fits n) with
  | none =>
    rw [hsearch] at hfind
    exact absurd hfind hfit
  | some b =>
    rw [hsearch] at hfind
    obtain ⟨hb, xs, ys, hsplit, -⟩ := List.find?_eq_some_iff_append.mp hsearch
    obtain ⟨free, enough⟩ := fits_eq_true.mp hb
    have hlaid := holds.laid
    have hapart := inv.apart
    rw [hsplit] at hlaid hapart
    obtain ⟨mem, htake, hlaid'⟩ := takeBlock_spec hlaid hapart pos enough
    refine ⟨xs, b, ys, mem, hsplit, free, enough, ?_, hlaid'⟩
    have hfound : findOrGrow k n s = .ok (b.addr, s) := by
      rw [findOrGrow, hfind]
      exact if_neg b.addr_pos.ne'
    rw [malloc, kassert_of pos, hfound]
    simp only [Except.ok_bind, htake]
    rfl

/-- `malloc` completes on a heap that it can grow by a block that is large enough. -/
theorem malloc_grows {s : State σ} {n frame : Nat} {granted mapped : σ} (holds : Holds s P)
    (inv : P.Invariant) (pos : 0 < n) (hfull : findFreeBlock s.mem s.blocks n = .ok 0)
    (hrequest : k.requestFrames (n / PAGE_SZ + 1) s.kernel = .ok (frame, granted))
    (hnull : frame ≠ 0) (hfresh : Fresh (s.obtained ++ [(frame, n / PAGE_SZ + 1)]))
    (hmap : allocatePages k frame (n / PAGE_SZ + 1) granted = .ok mapped)
    (hrest : n % PAGE_SZ ≤ PAGE_SZ - BLOCK_HEADER_SZ) : ∃ ptr s', malloc k s n = .ok (ptr, s') ∧
      n ≤ (header s'.mem (sub64 ptr BLOCK_HEADER_SZ)).bytes := by
  obtain ⟨grown, hgrow, hobtained⟩ := grow_completes holds inv hnull hfresh hrequest hmap
  obtain ⟨xs, c, ys, fresh, hsplit, hfree, hspan, -, hholds⟩ :=
    grow_spec holds inv hgrow (hobtained ▸ hfresh)
  have hnothing : ∀ a ∈ xs ++ c :: ys, ¬ fits n a = true := by
    rw [← hsplit]
    intro a ha hfit
    exact (holds.findFreeBlock_eq_zero inv n).mp hfull a ha (fits_eq_true.mp hfit)
  have hapart : BlocksApart ((xs ++ [c]) ++ fresh :: ys) := by
    have hframes : grown.obtained = P.frames ++ [(fresh.addr, n / PAGE_SZ + 1)] := hholds.frames
    rw [← hobtained, hframes] at hfresh
    exact (inv.insert hfresh hspan (hsplit.trans (List.append_cons xs c ys))).1
  have henough := (fresh_enough_iff hspan).mpr hrest
  have hfind := findFreeBlock_grown hholds hapart hnothing
  rw [if_pos (fits_eq_true.mpr ⟨hfree, henough⟩)] at hfind
  obtain ⟨mem, htake, hlaid⟩ := takeBlock_spec hholds.laid hapart pos henough
  refine ⟨fresh.data, { grown with mem }, ?_, allocate_enough hlaid henough⟩
  have hfound : findOrGrow k n s = .ok (fresh.addr, grown) := by
    rw [findOrGrow, hfull]
    simp only [Except.ok_bind, if_true, hgrow, hfind, kassert_of fresh.addr_pos.ne']
    rfl
  rw [malloc, kassert_of pos, hfound]
  simp only [Except.ok_bind, htake]
  rfl

/-- **When `malloc` completes.** In every state that a run reaches, if the pages that `malloc` asks
for are granted, it completes and returns a block of at least the size asked for exactly when a free
block is large enough, or the size leaves room for a header in the last page and the pages can be
mapped. -/
theorem malloc_completes_iff {kernel granted : σ} {mem : Mem} {n frame : Nat}
    (ok : Heap.new k kernel mem = .ok h) (run : Run (step k) Allowed ⟨h, []⟩ ops t)
    (hfresh : Fresh t.heap.obtained) (pos : 0 < n)
    (hgranted : findFreeBlock t.heap.mem t.heap.blocks n = .ok 0 →
      k.requestFrames (n / PAGE_SZ + 1) t.heap.kernel = .ok (frame, granted) ∧ frame ≠ 0 ∧
        Fresh (t.heap.obtained ++ [(frame, n / PAGE_SZ + 1)])) :
    (∃ ptr heap, malloc k t.heap n = .ok (ptr, heap) ∧
        n ≤ (header heap.mem (sub64 ptr BLOCK_HEADER_SZ)).bytes) ↔
      findFreeBlock t.heap.mem t.heap.blocks n ≠ .ok 0 ∨
        (n % PAGE_SZ ≤ PAGE_SZ - BLOCK_HEADER_SZ ∧
          ∃ mapped, allocatePages k frame (n / PAGE_SZ + 1) granted = .ok mapped) := by
  obtain ⟨P, rep, inv⟩ := sound_of_run ok run hfresh
  by_cases hfull : findFreeBlock t.heap.mem t.heap.blocks n = .ok 0
  · obtain ⟨hrequest, hnull, hmore⟩ := hgranted hfull
    constructor
    · rintro ⟨ptr, heap, hmalloc, -⟩
      exact .inr (malloc_grown rep.toHolds inv hfull hrequest hmore hmalloc)
    · rintro (hfit | ⟨hrest, mapped, hmap⟩)
      · exact absurd hfull hfit
      · exact malloc_grows rep.toHolds inv pos hfull hrequest hnull hmore hmap hrest
  · obtain ⟨xs, b, ys, mem, -, -, enough, hmalloc, hlaid⟩ :=
      @malloc_takes _ k _ _ _ rep.toHolds inv pos hfull
    exact iff_of_true ⟨_, _, hmalloc, allocate_enough hlaid enough⟩ (.inl hfull)

/-- 5000 bytes of a new heap: two pages hold them. -/
theorem small_malloc_completes : ∃ ptr heap, malloc tapeKernel firstHeap 5000 = .ok (ptr, heap) ∧
    5000 ≤ (header heap.mem (sub64 ptr BLOCK_HEADER_SZ)).bytes := by
  have hfresh : Fresh firstHeap.obtained := ⟨List.pairwise_singleton _ _, by decide⟩
  have hgranted : tapeKernel.requestFrames (5000 / PAGE_SZ + 1) firstHeap.kernel =
      .ok (0x2000, []) := rfl
  refine (malloc_completes_iff new_firstHeap (.nil _) hfresh (by decide)
    fun _ => ⟨hgranted, by decide, small_fresh⟩).mpr (.inr ⟨by decide, [], rfl⟩)

/-- 4090 bytes of a new heap: the page that is asked for is granted, the header takes 32 bytes of
it, and the second search finds nothing. -/
theorem small_malloc_stops :
    Heap.new tapeKernel [0x1000, 0x2000] (fun _ => 0) = .ok firstHeap ∧
      tapeKernel.requestFrames (4090 / PAGE_SZ + 1) firstHeap.kernel = .ok (0x2000, []) ∧
      Fresh (firstHeap.obtained ++ [(0x2000, 4090 / PAGE_SZ + 1)]) ∧
      ∀ r, malloc tapeKernel firstHeap 4090 ≠ .ok r := by
  refine ⟨new_firstHeap, rfl, ⟨?_, by decide⟩, ?_⟩
  · refine List.pairwise_pair.mpr (.inl ?_)
    show 0x1000 + 1 * PAGE_SZ ≤ 0x2000
    decide
  · have hstops : (malloc tapeKernel firstHeap 4090).map (fun _ => ()) =
        .error (.assertion "block != nullptr") := by decide +kernel
    intro r hok
    rw [hok] at hstops
    cases hstops

/-! ## `free` after `malloc` -/

/-- The lists of two heaps have the same blocks in the same order, with the same headers. -/
def SameList (s s' : State σ) : Prop :=
  s'.blocks = s.blocks ∧ ∃ bs, Listed s.mem s.blocks bs ∧ Listed s'.mem s'.blocks bs ∧
    ∀ b ∈ bs, header s'.mem b = header s.mem b

/-- Two heaps whose memories hold the same blocks have the same list. -/
theorem sameList_of_laid {s s' : State σ} (holds : Holds s P) (hblocks : s'.blocks = s.blocks)
    (hlaid : Laid s'.mem 0 P.blocks) : SameList s s' := by
  refine ⟨hblocks, P.blocks.map Block.addr, ?_, ?_, ?_⟩
  · rw [holds.root]
    exact listed_of_laid holds.laid
  · rw [hblocks, holds.root]
    exact listed_of_laid hlaid
  · intro addr haddr
    obtain ⟨b, hb, rfl⟩ := List.mem_map.mp haddr
    obtain ⟨xs, ys, hsplit⟩ := List.append_of_mem hb
    have hbefore := holds.laid
    rw [hsplit] at hbefore hlaid
    rw [hlaid.record_eq, hbefore.record_eq]

/-- `free` of a block that `malloc` made of a free one gives that one back. It merges with nothing
else, since the free block could not be merged with its neighbours. -/
theorem free_restores {s : State σ} {n : Nat} {b : Block} {xs ys : List Block} {pos : 0 < n}
    (hlaid : Laid s.mem 0 (xs ++ b.allocate n pos ++ ys)) (apart : BlocksApart (xs ++ b :: ys))
    (settled : Settled (xs ++ b :: ys)) (free : b.isFree = true) :
    ∃ mem, Heap.free s b.data = .ok { s with mem } ∧ Laid mem 0 (xs ++ b :: ys) := by
  have hright : ∀ c ∈ ys.head?, ¬ Mergeable b c :=
    fun c hc => (List.isChain_append.mp settled).2.1.rel_head? hc
  obtain ⟨d, rest, halloc, haddr, hjoin⟩ := @join_allocate _ _ n pos free hright
  have hapart : BlocksApart (xs ++ b.allocate n pos ++ ys) := sameExtents_allocate.apart.mpr apart
  have hdata : d.data = b.data := congrArg (· + BLOCK_HEADER_SZ) haddr
  rw [halloc, List.append_assoc, List.cons_append] at hlaid hapart
  rw [← hdata]
  rcases List.eq_nil_or_concat xs with rfl | ⟨ws, a, rfl⟩
  · obtain ⟨mem, hfree, hlaid'⟩ := free_first hlaid hapart
    rw [hjoin] at hlaid'
    exact ⟨mem, hfree, hlaid'⟩
  · rw [List.concat_eq_append, ← List.append_cons] at hlaid hapart settled ⊢
    have hleft : ¬ Mergeable a b := (List.isChain_append_cons_cons.mp settled).2.1
    have hsame : Mergeable a (d.mark true) ↔ Mergeable a b := by
      rw [Mergeable, Mergeable, free]
      show _ ∧ true = true ∧ a.stop = d.addr ↔ _
      rw [haddr]
    rcases free_later hlaid hapart with ⟨hstops, -⟩ | ⟨-, mem, hfree, hlaid'⟩
    · exact absurd (hsame.mp hstops.1) hleft
    · rw [hjoin, join, dif_neg hleft] at hlaid'
      exact ⟨mem, hfree, hlaid'⟩

/-- **`free` undoes `malloc`.** In every state that a run reaches, for every size that a free block
has room for: `malloc` completes, `free` of the pointer that it returned completes, and the list is
what it was before. -/
theorem malloc_free_restores {kernel : σ} {mem : Mem} {n block : Nat}
    (ok : Heap.new k kernel mem = .ok h) (run : Run (step k) Allowed ⟨h, []⟩ ops t)
    (hfresh : Fresh t.heap.obtained) (pos : 0 < n)
    (found : findFreeBlock t.heap.mem t.heap.blocks n = .ok block) (nonnull : block ≠ 0) :
    ∃ ptr taken back, malloc k t.heap n = .ok (ptr, taken) ∧ free taken ptr = .ok back ∧
      SameList t.heap back := by
  obtain ⟨P, rep, inv⟩ := sound_of_run ok run hfresh
  have hfit : findFreeBlock t.heap.mem t.heap.blocks n ≠ .ok 0 := by
    rw [found]
    exact fun hnull => nonnull (Except.ok.inj hnull)
  obtain ⟨xs, b, ys, mem, hsplit, hfree, -, hmalloc, hlaid⟩ :=
    @malloc_takes _ k _ _ _ rep.toHolds inv pos hfit
  obtain ⟨mem', hback, hlaid'⟩ := @free_restores _ { t.heap with mem } _ _ _ _ _ hlaid
    (hsplit ▸ inv.apart) (hsplit ▸ inv.settled) hfree
  refine ⟨b.data, _, _, hmalloc, hback, sameList_of_laid rep.toHolds rfl ?_⟩
  rw [hsplit]
  exact hlaid'

/-- 20 bytes are split off a block that was freed, and given back. -/
theorem small_malloc_free_restores : ∃ t, Run (step tapeKernel) Allowed ⟨firstHeap, []⟩
    [.malloc 10, .malloc 5000, .free 0x2020] t ∧
      ∃ ptr taken back, malloc tapeKernel t.heap 20 = .ok (ptr, taken) ∧
        free taken ptr = .ok back ∧ SameList t.heap back := by
  obtain ⟨t, run, ht⟩ : ∃ t, Run (step tapeKernel) Allowed ⟨firstHeap, []⟩
      [.malloc 10, .malloc 5000, .free 0x2020] t ∧
        (t.heap.obtained, (findFreeBlock t.heap.mem t.heap.blocks 20).toOption.map id) =
          ([(0x1000, 1), (0x2000, 2)], some 0x2000) :=
    Run.of_exec_map (by decide +kernel)
  obtain ⟨hobtained, hfind⟩ := Prod.mk.inj ht
  obtain ⟨block, found, rfl⟩ := Except.ok_of_toOption_map hfind
  exact ⟨t, run, malloc_free_restores new_firstHeap run (hobtained ▸ small_fresh) (by decide) found
    (by decide)⟩

end Runs

end PrintOS.Heap
