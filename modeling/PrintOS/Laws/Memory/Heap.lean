import PrintOS.Laws.Memory.Blocks
import PrintOS.Lib.Run

/-!
# The heap refines the pool of blocks

A memory represents a list of blocks when the header at each block's address holds the block's
data and the addresses of its list neighbours. Headers lie inside their blocks, so blocks that
are apart have headers apart, and a store to one header leaves the others alone: that is the
whole of the separation argument, in `header_setPrev_far` and its like.

Each part of the code has one law that says what list its memory represents afterwards.
`step_refines` puts them together: every completed operation is a step of the pool.
-/

namespace PrintOS.Heap

open ByteMemory (Mem Byte)
open Interval (Apart Before Covered)
open Linked (first last)

variable {m m' : Mem} {a b c : Block} {xs ys : List Block} {n p q v : Nat}

/-! ## Headers -/

/-- The headers at two addresses do not overlap. -/
def Far (a b : Nat) : Prop := a + BLOCK_HEADER_SZ ≤ b ∨ b + BLOCK_HEADER_SZ ≤ a

theorem Far.symm {a b : Nat} (h : Far a b) : Far b a := Or.symm h

theorem far_of_apart (h : Apart Block.addr Block.stop a b) : Far a.addr b.addr := by
  simp only [Apart, Before, Block.stop, Far] at h ⊢
  omega

/-- A header depends on its own bytes only. -/
theorem header_congr {block : Nat}
    (h : ∀ x, block ≤ x → x < block + BLOCK_HEADER_SZ → m' x = m x) :
    header m' block = header m block := by
  simp only [BLOCK_HEADER_SZ] at h
  have hprev : m'.read64 block = m.read64 block :=
    Mem.read64_congr fun x _ _ => h x (by omega) (by omega)
  have hnext : m'.read64 (block + 8) = m.read64 (block + 8) :=
    Mem.read64_congr fun x _ _ => h x (by omega) (by omega)
  have hbytes : m'.read64 (block + 24) = m.read64 (block + 24) :=
    Mem.read64_congr fun x _ _ => h x (by omega) (by omega)
  rw [header, header, hprev, hnext, hbytes, h (block + 16) (by omega) (by omega)]

section Store

variable {block other : Nat} {f : Bool}

/-- A store within one header leaves a far one alone. -/
theorem header_eq_of_far (far : Far block other)
    (h : ∀ x, x < block ∨ block + BLOCK_HEADER_SZ ≤ x → m' x = m x) :
    header m' other = header m other := by
  refine header_congr fun x h₁ h₂ => h x ?_
  unfold Far at far
  omega

theorem header_setPrev_far (far : Far block other) :
    header (setPrev m block v) other = header m other := by
  refine header_eq_of_far far fun x hx => Mem.write64_of_outside ?_
  simp only [BLOCK_HEADER_SZ] at hx
  omega

theorem header_setNext_far (far : Far block other) :
    header (setNext m block v) other = header m other := by
  refine header_eq_of_far far fun x hx => Mem.write64_of_outside ?_
  simp only [BLOCK_HEADER_SZ] at hx
  omega

theorem header_setBytes_far (far : Far block other) :
    header (setBytes m block v) other = header m other := by
  refine header_eq_of_far far fun x hx => Mem.write64_of_outside ?_
  simp only [BLOCK_HEADER_SZ] at hx
  omega

theorem header_setIsFree_far (far : Far block other) :
    header (setIsFree m block f) other = header m other := by
  refine header_eq_of_far far fun x hx => Mem.write_of_ne ?_
  simp only [BLOCK_HEADER_SZ] at hx
  omega

theorem header_setPrev (h : v < 2 ^ 64) :
    header (setPrev m block v) block = { header m block with prev := v } := by
  simp only [header, setPrev, Mem.read64_write64 h]
  rw [Mem.read64_write64_disjoint (by omega), Mem.read64_write64_disjoint (by omega),
    Mem.write64_of_outside (by omega)]

theorem header_setNext (h : v < 2 ^ 64) :
    header (setNext m block v) block = { header m block with next := v } := by
  simp only [header, setNext, Mem.read64_write64 h]
  rw [Mem.read64_write64_disjoint (by omega), Mem.read64_write64_disjoint (by omega),
    Mem.write64_of_outside (by omega)]

theorem header_setBytes (h : v < 2 ^ 64) :
    header (setBytes m block v) block = { header m block with bytes := v } := by
  simp only [header, setBytes, Mem.read64_write64 h]
  rw [Mem.read64_write64_disjoint (by omega), Mem.read64_write64_disjoint (by omega),
    Mem.write64_of_outside (by omega)]

theorem header_setIsFree :
    header (setIsFree m block f) block = { header m block with isFree := f } := by
  simp only [header, setIsFree, Mem.write_self]
  rw [Mem.read64_write_disjoint (by omega), Mem.read64_write_disjoint (by omega),
    Mem.read64_write_disjoint (by omega)]
  cases f with
  | false => rfl
  | true => rfl

end Store

/-! ## Lists of blocks in memory -/

/-- The header of a block between two neighbours. -/
def headerOf (p : Nat) (b : Block) (n : Nat) : BlockHeader where
  prev := p
  next := n
  isFree := b.isFree
  bytes := b.bytes

/-- The blocks are laid out in memory as a list from the predecessor `p` on; null ends it. -/
abbrev Laid (m : Mem) (p : Nat) (bs : List Block) : Prop :=
  Linked.Chain Block.addr headerOf (header m) p bs 0

namespace Block

theorem addr_lt (b : Block) : b.addr < 2 ^ 64 := by
  have hfits := b.fits
  have hpos := b.bytes_pos
  omega

theorem size_lt (b : Block) : BLOCK_HEADER_SZ + b.bytes < 2 ^ 64 := by
  have hfits := b.fits
  have hpos := b.addr_pos
  omega

theorem bytes_lt (b : Block) : b.bytes < 2 ^ 64 :=
  Nat.lt_of_le_of_lt (Nat.le_add_left _ _) b.size_lt

theorem data_lt (b : Block) : b.data < 2 ^ 64 := by
  have hfits := b.fits
  have hpos := b.bytes_pos
  unfold data
  omega

end Block

theorem first_lt (bs : List Block) : first Block.addr 0 bs < 2 ^ 64 := by
  cases bs with
  | nil => decide
  | cons b _ => exact b.addr_lt

theorem first_ne_zero {bs : List Block} : first Block.addr 0 bs ≠ 0 ↔ bs ≠ [] := by
  cases bs with
  | nil => exact iff_of_false (fun h => h rfl) fun h => h rfl
  | cons b _ => exact iff_of_true b.addr_pos.ne' (List.cons_ne_nil _ _)

/-- One block of a list is far from all the others, before it and after it. -/
theorem far_of_blocksApart (apart : BlocksApart (xs ++ b :: ys)) {z : Block}
    (hz : z ∈ xs ∨ z ∈ ys) : Far b.addr z.addr := by
  have hmiddle := (List.pairwise_middle Interval.apart_comm.mp).mp apart
  exact far_of_apart ((List.pairwise_cons.mp hmiddle).1 z (List.mem_append.mpr hz))

/-- The blocks of a list from one on are replaced by others that begin at the same address. -/
theorem Laid.splice {zs zs' : List Block} (h : Laid m p (xs ++ b :: zs))
    (haddr : c.addr = b.addr) (hxs : ∀ x ∈ xs, header m' x.addr = header m x.addr)
    (hrest : Laid m' (last Block.addr p xs) (c :: zs')) : Laid m' p (xs ++ c :: zs') := by
  obtain ⟨hleft, -⟩ := Linked.chain_append.mp h
  refine Linked.chain_append.mpr ⟨?_, hrest⟩
  rw [Linked.first_cons, haddr]
  exact hleft.congr hxs

/-- `linkBack` sets the back link of the first block of what follows. -/
theorem Laid.linkBack (h : Laid m p ys) (apart : BlocksApart ys) (hq : q < 2 ^ 64) :
    Laid (Heap.linkBack m (first Block.addr 0 ys) q) q ys := by
  cases ys with
  | nil => trivial
  | cons d zs =>
    obtain ⟨hhead, htail⟩ := h
    rw [Heap.linkBack, Linked.first_cons, if_pos d.addr_pos.ne']
    refine ⟨?_, htail.congr fun z hz => ?_⟩
    · rw [header_setPrev hq, hhead]
      rfl
    · exact header_setPrev_far (far_of_apart ((List.pairwise_cons.mp apart).1 z hz))

/-- The back link of what follows, set among stores to other headers. -/
theorem Laid.relink (h : Laid m p ys) (apart : BlocksApart ys) (hq : q < 2 ^ 64) (m₁ : Mem)
    (before : ∀ y ∈ ys, header m₁ y.addr = header m y.addr)
    (after : ∀ y ∈ ys, header m' y.addr =
      header (Heap.linkBack m₁ (first Block.addr 0 ys) q) y.addr) : Laid m' q ys := by
  have hlinked := Laid.linkBack (h.congr before) apart hq
  exact hlinked.congr after

theorem header_linkBack_far {block : Nat} (far : ∀ d ∈ ys, Far d.addr block) :
    header (linkBack m (first Block.addr 0 ys) q) block = header m block := by
  cases ys with
  | nil => rfl
  | cons d zs =>
    rw [linkBack, Linked.first_cons, if_pos d.addr_pos.ne']
    exact header_setPrev_far (far d List.mem_cons_self)

/-- A store to the mark of one block. -/
theorem Laid.setIsFree {f : Bool} (h : Laid m p (xs ++ b :: ys))
    (apart : BlocksApart (xs ++ b :: ys)) :
    Laid (Heap.setIsFree m b.addr f) p (xs ++ b.mark f :: ys) := by
  obtain ⟨-, hright, hcross⟩ := List.pairwise_append.mp apart
  refine h.splice rfl (fun x hx => ?_) ⟨?_, ?_⟩
  · exact header_setIsFree_far (far_of_apart (hcross x hx b List.mem_cons_self)).symm
  · show header _ b.addr = _
    rw [header_setIsFree, h.record_eq]
    rfl
  · refine (Linked.chain_append.mp h).2.2.congr fun y hy => ?_
    exact header_setIsFree_far (far_of_apart ((List.pairwise_cons.mp hright).1 y hy))

/-! ## Walks -/

/-- There are more addresses than blocks, so no walk along the list runs out of turns. -/
theorem length_lt_addresses {bs : List Block} (apart : BlocksApart bs) : bs.length < ADDRESSES := by
  have hnodup : (0 :: bs.map Block.addr).Nodup := by
    refine List.nodup_cons.mpr ⟨fun h => ?_, nodup_addr apart⟩
    obtain ⟨b, -, hb⟩ := List.mem_map.mp h
    exact b.addr_pos.ne' hb
  have hsub : 0 :: bs.map Block.addr ⊆ List.range ADDRESSES := by
    intro x hx
    rcases List.mem_cons.mp hx with rfl | hx
    · exact List.mem_range.mpr (by decide)
    · obtain ⟨b, -, rfl⟩ := List.mem_map.mp hx
      exact List.mem_range.mpr b.addr_lt
  have hle := (List.subperm_of_subset hnodup hsub).length_le
  rw [List.length_cons, List.length_map, List.length_range] at hle
  exact hle

/-- A free block with `n` bytes. -/
def fits (n : Nat) (b : Block) : Bool := b.isFree && decide (n ≤ b.bytes)

theorem fits_eq_true : fits n b = true ↔ b.isFree = true ∧ n ≤ b.bytes := by
  rw [fits, Bool.and_eq_true, decide_eq_true_eq]

/-- Where no other block fits, a search finds the one between them or nothing. -/
theorem find?_middle (hxs : ∀ a ∈ xs, ¬ fits n a = true) (hys : ∀ a ∈ ys, ¬ fits n a = true) :
    (xs ++ b :: ys).find? (fits n) = if fits n b = true then some b else none := by
  rw [List.find?_append, List.find?_eq_none.mpr hxs, Option.none_or, List.find?_cons]
  by_cases hb : fits n b = true
  · rw [if_pos hb, hb]
  · rw [if_neg hb, Bool.eq_false_iff.mpr hb]
    exact List.find?_eq_none.mpr hys

theorem findFreeFrom_eq {turns : Nat} (h : Laid m p (b :: ys)) (hturns : ys.length < turns) :
    findFreeFrom m n turns b.addr = .ok (((b :: ys).find? (fits n)).elim 0 Block.addr) := by
  induction turns generalizing b p ys with
  | zero => exact absurd hturns (Nat.not_lt_zero _)
  | succ turns ih =>
    rw [findFreeFrom, h.1]
    by_cases hfit : fits n b = true
    · rw [List.find?_cons_of_pos hfit]
      exact if_pos (fits_eq_true.mp hfit)
    · rw [List.find?_cons_of_neg hfit]
      apply (if_neg (mt fits_eq_true.mpr hfit)).trans
      cases ys with
      | nil => rfl
      | cons d zs => exact (if_pos d.addr_pos.ne').trans (ih h.2 (Nat.lt_of_succ_lt_succ hturns))

/-- `_find_free_block` finds the first free block that is large enough. -/
theorem findFreeBlock_eq {bs : List Block} (h : Laid m p bs) (apart : BlocksApart bs)
    (hne : bs ≠ []) : findFreeBlock m (first Block.addr 0 bs) n =
      .ok ((bs.find? (fits n)).elim 0 Block.addr) := by
  cases bs with
  | nil => exact absurd rfl hne
  | cons b ys =>
    rw [findFreeBlock, kassert_of (first_ne_zero.mpr hne)]
    have hlength := length_lt_addresses apart
    exact findFreeFrom_eq h (Nat.lt_of_succ_lt hlength)

/-- `_find_block_close_before_addr` stops at the last block, or at the first one that is lower
than the address and has a lower successor. -/
theorem closeBeforeFrom_eq {addr turns : Nat} (h : Laid m p (b :: ys)) (hturns : ys.length < turns) :
    ∃ xs c zs, b :: ys = xs ++ c :: zs ∧ Place addr xs c zs ∧
      closeBeforeFrom m addr turns b.addr = .ok c.addr := by
  induction turns generalizing b p ys with
  | zero => exact absurd hturns (Nat.not_lt_zero _)
  | succ turns ih =>
    rw [closeBeforeFrom, h.1, if_pos b.addr_pos.ne']
    cases ys with
    | nil =>
      refine ⟨[], b, [], rfl, ⟨.singleton _, fun d hd => ?_⟩, rfl⟩
      cases hd
    | cons d zs =>
      have hnext : (headerOf p b (first Block.addr 0 (d :: zs))).next = d.addr := rfl
      rw [hnext, if_neg d.addr_pos.ne']
      by_cases hlow : b.addr < addr ∧ d.addr < addr
      · refine ⟨[], b, d :: zs, rfl, ⟨.singleton _, fun e he => ?_⟩, if_pos hlow⟩
        cases he
        exact hlow
      · obtain ⟨xs, c, rest, hsplit, place, hfound⟩ := ih h.2 (Nat.lt_of_succ_lt_succ hturns)
        refine ⟨b :: xs, c, rest, congrArg (b :: ·) hsplit, ⟨?_, place.stops⟩,
          (if_neg hlow).trans hfound⟩
        -- the walk goes from `b` to `d`, where the rest of it begins
        refine place.passed.cons fun e he => ?_
        have hhead : (xs ++ [c]).head? = some d := by
          cases xs with
          | nil => exact congrArg some (List.cons.inj hsplit).1.symm
          | cons x xs => exact congrArg some (List.cons.inj hsplit).1.symm
        rw [hhead] at he
        cases he
        exact hlow

theorem findBlockCloseBeforeAddr_eq {bs : List Block} {addr : Nat} (h : Laid m p bs)
    (apart : BlocksApart bs) (hne : bs ≠ []) :
    ∃ xs c zs, bs = xs ++ c :: zs ∧ Place addr xs c zs ∧
      findBlockCloseBeforeAddr m (first Block.addr 0 bs) addr = .ok c.addr := by
  cases bs with
  | nil => exact absurd rfl hne
  | cons b ys => exact closeBeforeFrom_eq h (Nat.lt_of_succ_lt (length_lt_addresses apart))

theorem statsFrom_eq {bs : List Block} {turns : Nat} {stats : HeapStats} (h : Laid m p bs)
    (hturns : bs.length < turns) (hall : stats.allBlocks + bs.length < 2 ^ 64)
    (hfree : stats.freeBlocks + bs.length < 2 ^ 64)
    (hallocated : stats.allocatedBlocks + bs.length < 2 ^ 64) :
    statsFrom m turns (first Block.addr 0 bs) stats = .ok
      { allBlocks := stats.allBlocks + bs.length
        freeBlocks := stats.freeBlocks + bs.countP (·.isFree)
        allocatedBlocks := stats.allocatedBlocks + (allocated bs).length } := by
  induction turns generalizing p bs stats with
  | zero => exact absurd hturns (Nat.not_lt_zero _)
  | succ turns ih =>
    cases bs with
    | nil => rfl
    | cons b ys =>
      rw [List.length_cons] at hturns hall hfree hallocated
      have hu : ∀ i, i + (ys.length + 1) < 2 ^ 64 → u64 (i + 1) = i + 1 :=
        fun i hi => u64_of_lt (by omega)
      have hcount : ∀ i, i + (ys.length + 1) < 2 ^ 64 → i + 1 + ys.length < 2 ^ 64 :=
        fun i hi => by omega
      rw [Linked.first_cons, statsFrom, if_pos b.addr_pos.ne', h.1, hu _ hall]
      cases hb : b.isFree with
      | true =>
        simp only [headerOf, hb, if_true, hu _ hfree]
        rw [ih h.2 (Nat.lt_of_succ_lt_succ hturns), allocated_cons_free hb,
          List.countP_cons_of_pos hb]
        · congr 2
          · exact Nat.add_right_comm _ _ _
          · exact Nat.add_right_comm _ _ _
        · exact hcount _ hall
        · exact hcount _ hfree
        · exact Nat.lt_of_succ_lt hallocated
      | false =>
        simp only [headerOf, hb, Bool.false_eq_true, if_false, hu _ hallocated]
        rw [ih h.2 (Nat.lt_of_succ_lt_succ hturns), allocated_cons_taken hb,
          List.countP_cons_of_neg (by rw [hb]; exact Bool.false_ne_true)]
        · congr 2
          · exact Nat.add_right_comm _ _ _
          · exact Nat.add_right_comm _ _ _
        · exact hcount _ hall
        · exact Nat.lt_of_succ_lt hfree
        · exact hcount _ hallocated

/-- `get_heap_stats` counts the blocks of the list. -/
theorem getHeapStats_eq {bs : List Block} (h : Laid m p bs) (apart : BlocksApart bs) :
    getHeapStats m (first Block.addr 0 bs) = .ok
      { allBlocks := bs.length
        freeBlocks := bs.countP (·.isFree)
        allocatedBlocks := (allocated bs).length } := by
  have hlength : 0 + bs.length < 2 ^ 64 := by
    rw [Nat.zero_add]
    exact length_lt_addresses apart
  rw [getHeapStats, statsFrom_eq h (length_lt_addresses apart) hlength hlength hlength]
  simp only [Nat.zero_add]

/-! ## `malloc` takes a block -/

theorem deref_of_ne {ptr : Nat} (h : ptr ≠ 0) : deref ptr = .ok () := if_neg h

theorem getBlockDataAddr_eq (b : Block) : getBlockDataAddr b.addr = b.data := u64_of_lt b.data_lt

/-- The memory after the stores of a split: `new` is the block split off, before `next`. -/
def splitMem (m : Mem) (block new next bytes rest : Nat) : Mem :=
  let m := setIsFree (setIsFree m block false) new true
  let m := linkBack (setBytes m new rest) next new
  let m := setPrev (setNext m new next) new block
  setNext (setBytes m block bytes) block new

theorem takeBlock_split (room : n + BLOCK_HEADER_SZ < b.bytes)
    (hheader : header m b.addr = headerOf p b (first Block.addr 0 ys))
    (hfar : ∀ d ∈ ys, Far d.addr b.addr) :
    takeBlock m b.addr n = .ok (b.data, splitMem m b.addr (b.back n room).addr
      (first Block.addr 0 ys) n (b.back n room).bytes) := by
  have hb := b.bytes_lt
  have hsub : sub64 b.bytes n = b.bytes - n := sub64_of_le (by omega) (by omega)
  have hwhole : ¬ (b.bytes = n ∨ b.bytes - n ≤ BLOCK_HEADER_SZ) := by omega
  have hnew : u64 (b.data + n) = (b.back n room).addr := u64_of_lt (b.back n room).addr_lt
  have hrest : sub64 (b.bytes - n) BLOCK_HEADER_SZ = (b.back n room).bytes :=
    sub64_of_le (by omega) (by omega)
  have hfarNew : Far (b.back n room).addr b.addr := by
    simp only [Far, Block.back, Block.data]
    omega
  simp only [takeBlock, hheader, headerOf, getBlockDataAddr_eq, hsub, if_neg hwhole, hnew,
    deref_of_ne (b.back n room).addr_pos.ne', header_setIsFree_far hfarNew, header_setIsFree,
    header_setBytes_far hfarNew, hrest, header_setBytes (b.back n room).bytes_lt,
    kassert_of (b.back n room).bytes_pos, header_linkBack_far hfar]
  rfl

theorem laid_splitMem {room : n + BLOCK_HEADER_SZ < b.bytes} {pos : 0 < n}
    (h : Laid m p (xs ++ b :: ys)) (apart : BlocksApart (xs ++ b :: ys)) :
    Laid (splitMem m b.addr (b.back n room).addr (first Block.addr 0 ys) n (b.back n room).bytes)
      p (xs ++ b.front n pos room :: b.back n room :: ys) := by
  have hapart : BlocksApart (xs ++ b.front n pos room :: b.back n room :: ys) :=
    (SameExtents.cut (Block.cut_split pos room)).apart.mpr apart
  have hfarNew : ∀ z, z ∈ xs ++ [b.front n pos room] ∨ z ∈ ys →
      Far (b.back n room).addr z.addr :=
    fun z hz => far_of_blocksApart (List.append_cons xs _ _ ▸ hapart) hz
  have hfar : ∀ z, z ∈ xs ∨ z ∈ ys → Far b.addr z.addr := fun z => far_of_blocksApart apart
  have hnb : Far (b.back n room).addr b.addr := hfarNew (b.front n pos room) (.inl (by simp))
  obtain ⟨-, hright, hcross⟩ := List.pairwise_append.mp apart
  have hn : n < 2 ^ 64 := by
    have hb := b.bytes_lt
    omega
  have hold := (Linked.chain_append.mp h).2
  refine h.splice rfl (fun x hx => ?_) ⟨?_, ?_, ?_⟩
  · -- the blocks before
    have hb := hfar x (.inl hx)
    have hnew := hfarNew x (.inl (List.mem_append_left _ hx))
    have hys : ∀ d ∈ ys, Far d.addr x.addr := fun d hd =>
      (far_of_apart (hcross x hx d (List.mem_cons_of_mem _ hd))).symm
    simp only [splitMem, header_setNext_far hb, header_setBytes_far hb, header_setPrev_far hnew,
      header_setNext_far hnew, header_linkBack_far hys, header_setBytes_far hnew,
      header_setIsFree_far hnew, header_setIsFree_far hb]
  · -- the block itself
    show header _ b.addr = _
    simp only [splitMem, header_setNext (b.back n room).addr_lt, header_setBytes hn,
      header_setPrev_far hnb, header_setNext_far hnb,
      header_linkBack_far fun d hd => (hfar d (.inr hd)).symm,
      header_setBytes_far hnb, header_setIsFree_far hnb, header_setIsFree, hold.1]
    rfl
  · -- the block split off
    simp only [splitMem, header_setNext_far hnb.symm, header_setBytes_far hnb.symm,
      header_setPrev b.addr_lt, header_setNext (first_lt ys),
      header_linkBack_far fun d hd => (hfarNew d (.inr hd)).symm,
      header_setBytes (b.back n room).bytes_lt, header_setIsFree]
    rfl
  · -- the blocks after
    refine Laid.relink hold.2 (List.pairwise_cons.mp hright).2 (b.back n room).addr_lt
      (setBytes (setIsFree (setIsFree m b.addr false) (b.back n room).addr true)
        (b.back n room).addr (b.back n room).bytes) (fun y hy => ?_) (fun y hy => ?_)
    · have hb := hfar y (.inr hy)
      have hnew := hfarNew y (.inr hy)
      rw [header_setBytes_far hnew, header_setIsFree_far hnew, header_setIsFree_far hb]
    · have hb := hfar y (.inr hy)
      have hnew := hfarNew y (.inr hy)
      simp only [splitMem, header_setNext_far hb, header_setBytes_far hb, header_setPrev_far hnew,
        header_setNext_far hnew]

/-- What every block of a laid out list has in memory. -/
theorem Laid.header_eq {bs : List Block} (h : Laid m p bs) (hb : b ∈ bs) :
    ∃ prev next, header m b.addr = headerOf prev b next := by
  obtain ⟨xs, ys, rfl⟩ := List.append_of_mem hb
  exact ⟨_, _, h.record_eq⟩

/-- `malloc` on the block that it takes marks the whole block, or splits it. -/
theorem takeBlock_cases (h : Laid m p (xs ++ b :: ys)) (apart : BlocksApart (xs ++ b :: ys))
    (pos : 0 < n) (enough : n ≤ b.bytes) :
    (b.allocate n pos = [b.mark false] ∧
        takeBlock m b.addr n = .ok (b.data, setIsFree m b.addr false)) ∨
      ∃ room, b.allocate n pos = [b.front n pos room, b.back n room] ∧
        takeBlock m b.addr n = .ok (b.data, splitMem m b.addr (b.back n room).addr
          (first Block.addr 0 ys) n (b.back n room).bytes) := by
  have hheader := h.record_eq
  rcases allocate_cases b n pos with ⟨hsmall, halloc⟩ | ⟨room, halloc⟩
  · have hb := b.bytes_lt
    have hwhole : b.bytes = n ∨ sub64 b.bytes n ≤ BLOCK_HEADER_SZ := by
      rw [sub64_of_le enough (by omega)]
      omega
    refine .inl ⟨halloc, ?_⟩
    rw [takeBlock, hheader, getBlockDataAddr_eq]
    exact if_pos hwhole
  · refine .inr ⟨room, halloc, takeBlock_split room hheader fun d hd => ?_⟩
    exact (far_of_blocksApart apart (.inr hd)).symm

/-- It returns the block's data and leaves the block allocated. -/
theorem takeBlock_spec (h : Laid m p (xs ++ b :: ys)) (apart : BlocksApart (xs ++ b :: ys))
    (pos : 0 < n) (enough : n ≤ b.bytes) :
    ∃ m', takeBlock m b.addr n = .ok (b.data, m') ∧ Laid m' p (xs ++ b.allocate n pos ++ ys) := by
  rw [List.append_assoc]
  rcases takeBlock_cases h apart pos enough with ⟨halloc, htake⟩ | ⟨room, halloc, htake⟩
  · refine ⟨_, htake, ?_⟩
    rw [halloc]
    exact h.setIsFree apart
  · refine ⟨_, htake, ?_⟩
    rw [halloc]
    exact laid_splitMem h apart

/-! ## `free` merges -/

theorem getTotalBlockSize_eq (hheader : header m b.addr = headerOf p b q) :
    getTotalBlockSize m b.addr = BLOCK_HEADER_SZ + b.bytes := by
  rw [getTotalBlockSize, hheader]
  exact u64_of_lt b.size_lt

/-- The test of the code is that the one block ends where the other begins. A block that ends
with the last address ends at no block. -/
theorem areBlocksContiguous_iff (hheader : header m b.addr = headerOf p b q) :
    areBlocksContiguous m b.addr c.addr = true ↔ b.stop = c.addr := by
  have hpos := c.addr_pos
  have hc := c.addr_lt
  have hb := b.fits
  rw [areBlocksContiguous, if_neg (by have := b.addr_pos; omega), getTotalBlockSize_eq hheader,
    beq_iff_eq, Block.stop, u64]
  omega

/-- The block that a merge leaves, in memory. -/
theorem absorb_bytes (meet : b.stop = c.addr) :
    u64 (b.bytes + (BLOCK_HEADER_SZ + c.bytes)) = (b.absorb c meet).bytes :=
  u64_of_lt (b.absorb c meet).bytes_lt

/-- The memory after the stores of a merge: `next` is what follows the two blocks. -/
def joinMem (m : Mem) (block next bytes : Nat) : Mem :=
  linkBack (setNext (setBytes m block bytes) block next) next block

theorem laid_joinMem {zs : List Block} (h : Laid m p (xs ++ b :: c :: zs))
    (apart : BlocksApart (xs ++ b :: c :: zs)) (meet : b.stop = c.addr) :
    Laid (joinMem m b.addr (first Block.addr 0 zs) (b.absorb c meet).bytes) p
      (xs ++ b.absorb c meet :: zs) := by
  have hfar : ∀ z, z ∈ xs ∨ z ∈ zs → Far b.addr z.addr := fun z hz =>
    far_of_blocksApart apart (hz.imp_right (List.mem_cons_of_mem c))
  obtain ⟨-, hright, hcross⟩ := List.pairwise_append.mp apart
  have hbytes := (b.absorb c meet).bytes_lt
  have hold := (Linked.chain_append.mp h).2
  refine h.splice rfl (fun x hx => ?_) ⟨?_, ?_⟩
  · have hzs : ∀ d ∈ zs, Far d.addr x.addr := fun d hd => (far_of_apart
      (hcross x hx d (List.mem_cons_of_mem _ (List.mem_cons_of_mem _ hd)))).symm
    have hb := hfar x (.inl hx)
    rw [joinMem, header_linkBack_far hzs, header_setNext_far hb, header_setBytes_far hb]
  · show header _ b.addr = _
    rw [joinMem, header_linkBack_far fun d hd => (hfar d (.inr hd)).symm,
      header_setNext (first_lt zs), header_setBytes hbytes, hold.1]
    rfl
  · have hzs := (List.pairwise_cons.mp (List.pairwise_cons.mp hright).2).2
    refine Laid.relink hold.2.2 hzs b.addr_lt
      (setNext (setBytes m b.addr (b.absorb c meet).bytes) b.addr (first Block.addr 0 zs))
      (fun z hz => ?_) (fun z _ => rfl)
    have hb := hfar z (.inr hz)
    rw [header_setNext_far hb, header_setBytes_far hb]

theorem mergeNext_joins {zs : List Block} (hheader : header m b.addr = headerOf p b c.addr)
    (hnext : header m c.addr = headerOf b.addr c (first Block.addr 0 zs))
    (hfar : Far b.addr c.addr) (free : c.isFree = true) (meet : b.stop = c.addr) :
    mergeNext m b.addr = joinMem m b.addr (first Block.addr 0 zs) (b.absorb c meet).bytes := by
  have hbytes := (b.absorb c meet).bytes_lt
  have hcond : c.addr ≠ 0 ∧ (header m c.addr).isFree = true ∧
      areBlocksContiguous m b.addr c.addr = true := by
    refine ⟨c.addr_pos.ne', ?_, (areBlocksContiguous_iff hheader).mpr meet⟩
    rw [hnext]
    exact free
  rw [mergeNext, hheader]
  apply (if_pos hcond).trans
  simp only [headerOf, getTotalBlockSize_eq hnext, absorb_bytes meet, hheader,
    header_setBytes hbytes, header_setBytes_far hfar, hnext, header_setNext (first_lt zs)]
  rfl

/-- The merge with the next block joins the two in memory, or it changes nothing. -/
theorem mergeNext_cases (h : Laid m p (xs ++ b :: ys)) (apart : BlocksApart (xs ++ b :: ys))
    (free : b.isFree = true) :
    (join b ys = b :: ys ∧ mergeNext m b.addr = m) ∨
      ∃ c zs, ∃ meet : b.stop = c.addr, ys = c :: zs ∧ join b ys = b.absorb c meet :: zs ∧
        mergeNext m b.addr =
          joinMem m b.addr (first Block.addr 0 zs) (b.absorb c meet).bytes := by
  have hheader := h.record_eq
  cases ys with
  | nil =>
    refine .inl ⟨rfl, ?_⟩
    rw [mergeNext, hheader, if_neg (fun hcond => hcond.1 rfl)]
  | cons c zs =>
    have hnext : header m c.addr = headerOf b.addr c (first Block.addr 0 zs) :=
      (Linked.chain_append.mp h).2.2.1
    by_cases hmerge : Mergeable b c
    · refine .inr ⟨c, zs, hmerge.2.2, rfl, dif_pos hmerge, ?_⟩
      exact mergeNext_joins hheader hnext (far_of_blocksApart apart (.inr List.mem_cons_self))
        hmerge.2.1 hmerge.2.2
    · have hcond : ¬ (c.addr ≠ 0 ∧ (header m c.addr).isFree = true ∧
          areBlocksContiguous m b.addr c.addr = true) := by
        rintro ⟨-, hfree, hmeet⟩
        rw [hnext] at hfree
        exact hmerge ⟨free, hfree, (areBlocksContiguous_iff hheader).mp hmeet⟩
      refine .inl ⟨dif_neg hmerge, ?_⟩
      rw [mergeNext, hheader]
      exact if_neg hcond

/-- `free` joins a free block to its successor if it can. -/
theorem mergeNext_spec (h : Laid m p (xs ++ b :: ys)) (apart : BlocksApart (xs ++ b :: ys))
    (free : b.isFree = true) : Laid (mergeNext m b.addr) p (xs ++ join b ys) := by
  rcases mergeNext_cases h apart free with ⟨hjoin, hmem⟩ | ⟨c, zs, meet, rfl, hjoin, hmem⟩
  · rw [hjoin, hmem]
    exact h
  · rw [hjoin, hmem]
    exact laid_joinMem h apart meet

/-- The first block of the list has no block before it to merge with. -/
theorem mergePrev_first (h : Laid m 0 (b :: ys)) : mergePrev m b.addr = .ok m := by
  rw [mergePrev, h.1]
  exact if_neg fun hcond => hcond.1 rfl

theorem mergePrev_joins (hprev : header m a.addr = headerOf p a b.addr)
    (hheader : header m b.addr = headerOf a.addr b q) (hfar : Far a.addr b.addr)
    (free : a.isFree = true) (meet : a.stop = b.addr) :
    mergePrev m b.addr = (do
      deref q
      return setPrev (setNext (setBytes m a.addr (a.absorb b meet).bytes) a.addr q) q a.addr) := by
  have hcond : a.addr ≠ 0 ∧ (header m a.addr).isFree = true ∧
      areBlocksContiguous m a.addr b.addr = true := by
    refine ⟨a.addr_pos.ne', ?_, (areBlocksContiguous_iff hprev).mpr meet⟩
    rw [hprev]
    exact free
  rw [mergePrev, hheader]
  apply (if_pos hcond).trans
  simp only [headerOf, getTotalBlockSize_eq hheader, hprev, absorb_bytes meet, hheader,
    header_setBytes_far hfar, header_setNext_far hfar]

/-- The merge with the previous block changes nothing, or it stops on a null pointer, or it joins
the two in memory. -/
theorem mergePrev_cases (h : Laid m p (xs ++ a :: b :: ys))
    (apart : BlocksApart (xs ++ a :: b :: ys)) (free : b.isFree = true) :
    (¬ Mergeable a b ∧ mergePrev m b.addr = .ok m) ∨
      ∃ hmerge : Mergeable a b, (ys = [] ∧ mergePrev m b.addr = .error .nullDeref) ∨
        (ys ≠ [] ∧ mergePrev m b.addr =
          .ok (joinMem m a.addr (first Block.addr 0 ys) (a.absorb b hmerge.2.2).bytes)) := by
  have hprev : header m a.addr = headerOf (last Block.addr p xs) a b.addr := h.record_eq
  have hheader : header m b.addr = headerOf a.addr b (first Block.addr 0 ys) :=
    (Linked.chain_append.mp h).2.2.1
  by_cases hmerge : Mergeable a b
  · have hfar : Far a.addr b.addr := far_of_blocksApart apart (.inr List.mem_cons_self)
    refine .inr ⟨hmerge, ?_⟩
    rw [mergePrev_joins hprev hheader hfar hmerge.1 hmerge.2.2]
    cases ys with
    | nil => exact .inl ⟨rfl, rfl⟩
    | cons d zs =>
      refine .inr ⟨List.cons_ne_nil _ _, ?_⟩
      rw [Linked.first_cons, deref_of_ne d.addr_pos.ne', joinMem, linkBack, if_pos d.addr_pos.ne']
      rfl
  · have hcond : ¬ (a.addr ≠ 0 ∧ (header m a.addr).isFree = true ∧
        areBlocksContiguous m a.addr b.addr = true) := by
      rintro ⟨-, hfree, hmeet⟩
      rw [hprev] at hfree
      exact hmerge ⟨hfree, free, (areBlocksContiguous_iff hprev).mp hmeet⟩
    refine .inl ⟨hmerge, ?_⟩
    rw [mergePrev, hheader]
    exact if_neg hcond

/-- `free` joins a free block to its predecessor if it can. A merge of the last two blocks of
the list follows a null pointer. -/
theorem mergePrev_spec (h : Laid m p (xs ++ a :: b :: ys))
    (apart : BlocksApart (xs ++ a :: b :: ys)) (free : b.isFree = true) :
    ((Mergeable a b ∧ ys = []) ∧ mergePrev m b.addr = .error .nullDeref) ∨
      (¬ (Mergeable a b ∧ ys = []) ∧
        ∃ m', mergePrev m b.addr = .ok m' ∧ Laid m' p (xs ++ join a (b :: ys))) := by
  rcases mergePrev_cases h apart free with
    ⟨hmerge, hok⟩ | ⟨hmerge, ⟨hnil, herror⟩ | ⟨hne, hok⟩⟩
  · refine .inr ⟨fun h => hmerge h.1, m, hok, ?_⟩
    rw [join, dif_neg hmerge]
    exact h
  · exact .inl ⟨⟨hmerge, hnil⟩, herror⟩
  · refine .inr ⟨fun h => hne h.2, _, hok, ?_⟩
    rw [join, dif_pos hmerge]
    exact laid_joinMem h apart hmerge.2.2

/-! ## `malloc` grows the heap -/

/-- The memory after the stores that link a block between two others. -/
def insertMem (m : Mem) (block prev next : Nat) : Mem :=
  linkBack (setNext (setPrev (setNext m block next) block prev) prev block) next block

theorem laid_insertMem {fresh : Block} (h : Laid m p (xs ++ c :: ys))
    (hdata : ∀ p n, { header m fresh.addr with prev := p, next := n } = headerOf p fresh n)
    (apart : BlocksApart ((xs ++ [c]) ++ fresh :: ys)) :
    Laid (insertMem m fresh.addr c.addr (first Block.addr 0 ys)) p
      ((xs ++ [c]) ++ fresh :: ys) := by
  have hfarNew : ∀ z, z ∈ xs ++ [c] ∨ z ∈ ys → Far fresh.addr z.addr :=
    fun z => far_of_blocksApart apart
  have hold_apart : BlocksApart (xs ++ c :: ys) := by
    rw [List.append_cons]
    exact (List.pairwise_cons.mp ((List.pairwise_middle Interval.apart_comm.mp).mp apart)).2
  have hfar : ∀ z, z ∈ xs ∨ z ∈ ys → Far c.addr z.addr := fun z => far_of_blocksApart hold_apart
  have hnc : Far fresh.addr c.addr := hfarNew c (.inl (by simp))
  obtain ⟨-, hright, hcross⟩ := List.pairwise_append.mp hold_apart
  have hold := (Linked.chain_append.mp h).2
  rw [← List.append_cons]
  refine h.splice rfl (fun x hx => ?_) ⟨?_, ?_, ?_⟩
  · have hc := hfar x (.inl hx)
    have hnew := hfarNew x (.inl (List.mem_append_left _ hx))
    have hys : ∀ d ∈ ys, Far d.addr x.addr := fun d hd =>
      (far_of_apart (hcross x hx d (List.mem_cons_of_mem _ hd))).symm
    rw [insertMem, header_linkBack_far hys, header_setNext_far hc, header_setPrev_far hnew,
      header_setNext_far hnew]
  · rw [insertMem, header_linkBack_far fun d hd => (hfar d (.inr hd)).symm,
      header_setNext fresh.addr_lt, header_setPrev_far hnc, header_setNext_far hnc, hold.1]
    rfl
  · rw [insertMem, header_linkBack_far fun d hd => (hfarNew d (.inr hd)).symm,
      header_setNext_far hnc.symm, header_setPrev c.addr_lt, header_setNext (first_lt ys)]
    exact hdata _ _
  · refine Laid.relink hold.2 (List.pairwise_cons.mp hright).2 fresh.addr_lt
      (setNext (setPrev (setNext m fresh.addr (first Block.addr 0 ys)) fresh.addr c.addr)
        c.addr fresh.addr) (fun y hy => ?_) (fun y _ => rfl)
    have hc := hfar y (.inr hy)
    have hnew := hfarNew y (.inr hy)
    rw [header_setNext_far hc, header_setPrev_far hnew, header_setNext_far hnew]

/-- What `malloc` makes of the memory when it grows the heap: `mem` has the new block's data, and
`linked` its links and the link to it. -/
theorem laid_grow {fresh : Block} {mem linked : Mem} (h : Laid m p (xs ++ c :: ys))
    (apart : BlocksApart ((xs ++ [c]) ++ fresh :: ys)) (free : fresh.isFree = true)
    (hmem : mem = setIsFree (setBytes m fresh.addr fresh.bytes) fresh.addr true)
    (hlinked : linked = setNext (setPrev (setNext mem fresh.addr (header mem c.addr).next)
      fresh.addr c.addr) c.addr fresh.addr) :
    Laid (linkBack linked (header linked fresh.addr).next fresh.addr) p
      ((xs ++ [c]) ++ fresh :: ys) := by
  have hfar : ∀ z ∈ xs ++ c :: ys, Far fresh.addr z.addr := by
    intro z hz
    rw [List.append_cons] at hz
    exact far_of_blocksApart apart (List.mem_append.mp hz)
  have hc : Far fresh.addr c.addr := hfar c (List.mem_append_right _ List.mem_cons_self)
  have hlaid : Laid mem p (xs ++ c :: ys) := by
    refine h.congr fun z hz => ?_
    rw [hmem, header_setIsFree_far (hfar z hz), header_setBytes_far (hfar z hz)]
  have hnext : (header mem c.addr).next = first Block.addr 0 ys := by
    rw [hlaid.record_eq]
    rfl
  have hlinked_next : (header linked fresh.addr).next = first Block.addr 0 ys := by
    rw [hlinked, header_setNext_far hc.symm, header_setPrev c.addr_lt, hnext,
      header_setNext (first_lt ys)]
  have hinsert : linkBack linked (header linked fresh.addr).next fresh.addr =
      insertMem mem fresh.addr c.addr (first Block.addr 0 ys) := by
    rw [hlinked_next, hlinked, hnext]
    rfl
  rw [hinsert]
  refine laid_insertMem hlaid (fun p n => ?_) apart
  rw [hmem, header_setIsFree, header_setBytes fresh.bytes_lt, headerOf, free]

/-! ## The operations

What the operations do to a heap whose list is laid out in memory. -/

/-- The heap holds the pool: its list is laid out in memory from `_blocks` on, and its pages are
the pool's. -/
structure Holds {σ : Type} (s : State σ) (P : Pool) : Prop where
  root : s.blocks = first Block.addr 0 P.blocks
  laid : Laid s.mem 0 P.blocks
  frames : s.obtained = P.frames

section Operations

variable {σ : Type} {k : Kernel σ} {s s' : State σ} {P : Pool}

/-- What a completed `grow` went through: the pages are granted and mapped, the block's data is
set, a place is found for it, and it is linked there. -/
theorem grow_ok (ok : grow k n s = .ok s') : ∃ block prev granted kernel mem linked,
    k.requestFrames (n / PAGE_SZ + 1) s.kernel = .ok (block, granted) ∧
      allocatePages k block (n / PAGE_SZ + 1) granted = .ok kernel ∧ block ≠ 0 ∧
      mem = setIsFree (setBytes s.mem block
        (sub64 (u64 ((n / PAGE_SZ + 1) * PAGE_SZ)) BLOCK_HEADER_SZ)) block true ∧
      findBlockCloseBeforeAddr mem s.blocks block = .ok prev ∧
      linked = setNext (setPrev (setNext mem block (header mem prev).next) block prev) prev block ∧
      s' = { s with
        mem := linkBack linked (header linked block).next block
        kernel := kernel
        obtained := s.obtained ++ [(block, n / PAGE_SZ + 1)] } := by
  obtain ⟨⟨block, granted⟩, hrequest, ok⟩ := Except.bind_eq_ok.mp ok
  obtain ⟨kernel, hmap, ok⟩ := Except.bind_eq_ok.mp ok
  obtain ⟨_, hnull, ok⟩ := Except.bind_eq_ok.mp ok
  obtain ⟨prev, hprev, ok⟩ := Except.bind_eq_ok.mp ok
  refine ⟨block, prev, granted, kernel, _, _, hrequest, hmap, ?_, rfl, hprev, rfl, ?_⟩
  · rintro rfl
    cases hnull
  · exact (Except.ok.inj ok).symm

/-- The data of a new block over fresh pages leaves the list as it is. -/
theorem laid_fresh {fresh : Block} {pages : Nat} (holds : Holds s P) (inv : P.Invariant)
    (hfresh : Fresh (P.frames ++ [(fresh.addr, pages)]))
    (span : fresh.stop = rangeEnd (fresh.addr, pages)) (bytes : Nat) :
    Laid (setIsFree (setBytes s.mem fresh.addr bytes) fresh.addr true) 0 P.blocks := by
  refine holds.laid.congr fun b hb => ?_
  have hfar : Far fresh.addr b.addr := far_of_apart (inv.apart_fresh hfresh span b hb)
  rw [header_setIsFree_far hfar, header_setBytes_far hfar]

/-- `malloc` without a block that is large enough puts a new free block over the pages it
obtains, where the walk along the list stops. -/
theorem grow_spec (holds : Holds s P) (inv : P.Invariant) (ok : grow k n s = .ok s')
    (hfresh : Fresh s'.obtained) : ∃ xs c ys fresh,
      P.blocks = xs ++ c :: ys ∧ fresh.isFree = true ∧
        fresh.stop = rangeEnd (fresh.addr, n / PAGE_SZ + 1) ∧ Place fresh.addr xs c ys ∧
        Holds s' ⟨(xs ++ [c]) ++ fresh :: ys, P.frames ++ [(fresh.addr, n / PAGE_SZ + 1)], P.live⟩ := by
  obtain ⟨block, prev, _, kernel, mem, linked, -, -, hnull, hmem, hprev, hlinked, rfl⟩ :=
    grow_ok ok
  obtain ⟨fresh, rfl, hfree, hspan, hbytes⟩ := exists_ofPages hnull (Nat.succ_pos (n / PAGE_SZ))
    (hfresh.fits _ (List.mem_append_right _ List.mem_cons_self))
  have hfresh' : Fresh (P.frames ++ [(fresh.addr, n / PAGE_SZ + 1)]) := holds.frames ▸ hfresh
  rw [hbytes] at hmem
  have hlaid : Laid mem 0 P.blocks := hmem ▸ laid_fresh holds inv hfresh' hspan fresh.bytes
  obtain ⟨xs, c, ys, hsplit, place, hfound⟩ :=
    findBlockCloseBeforeAddr_eq hlaid inv.apart (first_ne_zero.mp inv.nonnull)
  rw [holds.root, hfound] at hprev
  obtain rfl := Except.ok.inj hprev
  have hapart := (inv.insert hfresh' hspan (hsplit.trans (List.append_cons xs c ys))).1
  refine ⟨xs, c, ys, fresh, hsplit, hfree, hspan, place, ?_, ?_, ?_⟩
  · simp only [holds.root, hsplit, List.append_assoc, Linked.first_append, Linked.first_cons]
  · have hold := holds.laid
    rw [hsplit] at hold
    dsimp only
    exact laid_grow hold hapart hfree hmem hlinked
  · exact congrArg (· ++ [_]) holds.frames

/-- `malloc` grows the heap if the pages are granted and mapped. -/
theorem grow_completes {frame : Nat} {granted mapped : σ} (holds : Holds s P) (inv : P.Invariant)
    (hnull : frame ≠ 0) (hfresh : Fresh (s.obtained ++ [(frame, n / PAGE_SZ + 1)]))
    (hrequest : k.requestFrames (n / PAGE_SZ + 1) s.kernel = .ok (frame, granted))
    (hmap : allocatePages k frame (n / PAGE_SZ + 1) granted = .ok mapped) :
    ∃ s', grow k n s = .ok s' ∧ s'.obtained = s.obtained ++ [(frame, n / PAGE_SZ + 1)] := by
  obtain ⟨fresh, rfl, -, hspan, -⟩ := exists_ofPages hnull (Nat.succ_pos (n / PAGE_SZ))
    (hfresh.fits _ (List.mem_append_right _ List.mem_cons_self))
  obtain ⟨prev, hfound⟩ : ∃ prev, findBlockCloseBeforeAddr (setIsFree (setBytes s.mem fresh.addr
      (sub64 (u64 ((n / PAGE_SZ + 1) * PAGE_SZ)) BLOCK_HEADER_SZ)) fresh.addr true) s.blocks
      fresh.addr = .ok prev := by
    have hlaid := laid_fresh holds inv (holds.frames ▸ hfresh) hspan
      (sub64 (u64 ((n / PAGE_SZ + 1) * PAGE_SZ)) BLOCK_HEADER_SZ)
    obtain ⟨xs, c, ys, -, -, hfound⟩ :=
      findBlockCloseBeforeAddr_eq hlaid inv.apart (first_ne_zero.mp inv.nonnull)
    exact ⟨c.addr, holds.root ▸ hfound⟩
  simp only [grow, hrequest, hmap, deref_of_ne hnull, hfound, Except.ok_bind]
  exact ⟨_, rfl, rfl⟩

/-- Where no old block fits, the second search can only find the new one. -/
theorem findFreeBlock_grown {fresh : Block} {frames live : List (Nat × Nat)}
    (holds : Holds s' ⟨(xs ++ [c]) ++ fresh :: ys, frames, live⟩)
    (apart : BlocksApart ((xs ++ [c]) ++ fresh :: ys))
    (nothing : ∀ a ∈ xs ++ c :: ys, ¬ fits n a = true) :
    findFreeBlock s'.mem s'.blocks n = .ok (if fits n fresh = true then fresh.addr else 0) := by
  have hold : ∀ a, a ∈ xs ++ [c] ∨ a ∈ ys → ¬ fits n a = true := by
    intro a ha
    apply nothing a
    rw [List.append_cons]
    exact List.mem_append.mpr ha
  rw [holds.root, findFreeBlock_eq holds.laid apart (by simp),
    find?_middle (fun a ha => hold a (.inl ha)) (fun a ha => hold a (.inr ha))]
  by_cases hfit : fits n fresh = true
  · rw [if_pos hfit, if_pos hfit]
    rfl
  · rw [if_neg hfit, if_neg hfit]
    rfl

/-- What `malloc` went through up to the block that it takes: the search found it in the list, or
the search found nothing, and the second one found it in the grown heap. -/
theorem findOrGrow_ok {block : Nat} (ok : findOrGrow k n s = .ok (block, s')) : block ≠ 0 ∧
    ((findFreeBlock s.mem s.blocks n = .ok block ∧ s' = s) ∨
      (findFreeBlock s.mem s.blocks n = .ok 0 ∧ grow k n s = .ok s' ∧
        findFreeBlock s'.mem s'.blocks n = .ok block)) := by
  obtain ⟨found, hfound, ok⟩ := Except.bind_eq_ok.mp ok
  by_cases hnull : found = 0
  · obtain ⟨grown, hgrow, ok⟩ := Except.bind_eq_ok.mp ((if_pos hnull).symm.trans ok)
    obtain ⟨second, hsecond, ok⟩ := Except.bind_eq_ok.mp ok
    obtain ⟨_, hassert, ok⟩ := Except.bind_eq_ok.mp ok
    obtain ⟨rfl, rfl⟩ := Prod.mk.inj (Except.ok.inj ok)
    exact ⟨kassert_eq_ok.mp hassert, .inr ⟨hnull ▸ hfound, hgrow, hsecond⟩⟩
  · obtain ⟨rfl, rfl⟩ := Prod.mk.inj (Except.ok.inj ((if_neg hnull).symm.trans ok))
    exact ⟨hnull, .inl ⟨hfound, rfl⟩⟩

/-- What a completed `malloc` went through: it has a block, and takes it. -/
theorem malloc_ok {ptr : Nat} (ok : malloc k s n = .ok (ptr, s')) : 0 < n ∧ ∃ block u mem,
    findOrGrow k n s = .ok (block, u) ∧ takeBlock u.mem block n = .ok (ptr, mem) ∧
      s' = { u with mem } := by
  obtain ⟨_, hpos, ok⟩ := Except.bind_eq_ok.mp ok
  obtain ⟨⟨block, u⟩, hfind, ok⟩ := Except.bind_eq_ok.mp ok
  obtain ⟨⟨ptr', mem⟩, htake, ok⟩ := Except.bind_eq_ok.mp ok
  obtain ⟨rfl, rfl⟩ := Prod.mk.inj (Except.ok.inj ok)
  exact ⟨kassert_eq_ok.mp hpos, block, u, mem, hfind, htake, rfl⟩

/-- A completed `malloc` whose search finds nothing has grown the heap. -/
theorem grow_of_malloc {ptr : Nat} (full : findFreeBlock s.mem s.blocks n = .ok 0)
    (ok : malloc k s n = .ok (ptr, s')) : ∃ block u mem,
      findOrGrow k n s = .ok (block, u) ∧ grow k n s = .ok u ∧ s' = { u with mem } := by
  obtain ⟨-, block, u, mem, hfind, -, rfl⟩ := malloc_ok ok
  obtain ⟨hnull, ⟨hfound, -⟩ | ⟨-, hgrow, -⟩⟩ := findOrGrow_ok hfind
  · exact absurd (Except.ok.inj (hfound.symm.trans full)) hnull
  · exact ⟨block, u, mem, hfind, hgrow, rfl⟩

/-- `malloc` up to the block that it takes: the first one that fits, or else the new one. -/
theorem findOrGrow_spec {block : Nat} (holds : Holds s P) (inv : P.Invariant)
    (ok : findOrGrow k n s = .ok (block, s')) (hfresh : Fresh s'.obtained) :
    (∃ xs b ys, P.blocks = xs ++ b :: ys ∧ b.isFree = true ∧ n ≤ b.bytes ∧
        (∀ a ∈ xs, ¬ (a.isFree = true ∧ n ≤ a.bytes)) ∧ block = b.addr ∧ s' = s) ∨
      ∃ xs c ys fresh, P.blocks = xs ++ c :: ys ∧
        (∀ a ∈ P.blocks, ¬ (a.isFree = true ∧ n ≤ a.bytes)) ∧ n ≤ fresh.bytes ∧
        fresh.stop = rangeEnd (fresh.addr, n / PAGE_SZ + 1) ∧ Place fresh.addr xs c ys ∧
        block = fresh.addr ∧ grow k n s = .ok s' ∧ Holds s' ⟨(xs ++ [c]) ++ fresh :: ys,
          P.frames ++ [(fresh.addr, n / PAGE_SZ + 1)], P.live⟩ := by
  have hfind := @findFreeBlock_eq _ n _ _ holds.laid inv.apart (first_ne_zero.mp inv.nonnull)
  rw [← holds.root] at hfind
  obtain ⟨hnull, ⟨hfound, rfl⟩ | ⟨hnone, hgrow, hfound⟩⟩ := findOrGrow_ok ok
  · left
    have hblock := Except.ok.inj (hfound.symm.trans hfind)
    cases hsearch : P.blocks.find? (fits n) with
    | none =>
      rw [hsearch] at hblock
      exact absurd hblock hnull
    | some b =>
      rw [hsearch] at hblock
      obtain ⟨hfit, xs, ys, hsplit, hpassed⟩ := List.find?_eq_some_iff_append.mp hsearch
      obtain ⟨hfree, henough⟩ := fits_eq_true.mp hfit
      refine ⟨xs, b, ys, hsplit, hfree, henough, fun a ha h => ?_, hblock, rfl⟩
      have hnot := hpassed a ha
      rw [fits_eq_true.mpr h] at hnot
      cases hnot
  · right
    have hsearch := Except.ok.inj (hnone.symm.trans hfind)
    have hnothing : ∀ a ∈ P.blocks, ¬ fits n a = true := by
      refine List.find?_eq_none.mp ?_
      cases hb : P.blocks.find? (fits n) with
      | none => rfl
      | some b =>
        rw [hb] at hsearch
        exact absurd hsearch.symm b.addr_pos.ne'
    obtain ⟨xs, c, ys, fresh, hsplit, hfree, hspan, place, hholds⟩ :=
      grow_spec holds inv hgrow hfresh
    have hframes : s'.obtained = P.frames ++ [(fresh.addr, n / PAGE_SZ + 1)] := hholds.frames
    rw [hframes] at hfresh
    have hapart := (inv.insert hfresh hspan (hsplit.trans (List.append_cons xs c ys))).1
    rw [findFreeBlock_grown hholds hapart (hsplit ▸ hnothing)] at hfound
    have hblock := Except.ok.inj hfound
    by_cases hfit : fits n fresh = true
    · rw [if_pos hfit] at hblock
      exact ⟨xs, c, ys, fresh, hsplit, fun a ha h => hnothing a ha (fits_eq_true.mpr h),
        (fits_eq_true.mp hfit).2, hspan, place, hblock.symm, hgrow, hholds⟩
    · rw [if_neg hfit] at hblock
      exact absurd hblock.symm hnull

/-- `free` finds the block of a pointer. -/
theorem sub64_data (b : Block) : sub64 b.data BLOCK_HEADER_SZ = b.addr := by
  have hle : BLOCK_HEADER_SZ ≤ b.data := Nat.le_add_left _ _
  rw [sub64_of_le hle b.data_lt]
  exact Nat.add_sub_cancel _ _

theorem free_eq (s : State σ) (b : Block) : free s b.data = (do
    let mem ← mergePrev (mergeNext (setIsFree s.mem b.addr true) b.addr) b.addr
    return { s with mem }) := by
  have hdata : b.data ≠ 0 := by
    have hpos := b.addr_pos
    unfold Block.data
    omega
  simp only [free, if_neg hdata, sub64_data, deref_of_ne b.addr_pos.ne', Except.ok_bind]

/-- `free` up to the merge with the block before: the block is marked free and joined to its
successor if it can be, which leaves a free block `d` at its address. -/
theorem free_cons (h : Laid s.mem 0 (xs ++ b :: ys)) (apart : BlocksApart (xs ++ b :: ys)) :
    ∃ d zs, join (b.mark true) ys = d :: zs ∧ d.addr = b.addr ∧ d.isFree = true ∧
      Laid (mergeNext (setIsFree s.mem b.addr true) b.addr) 0 (xs ++ d :: zs) ∧
      BlocksApart (xs ++ d :: zs) ∧
      free s b.data = (do
        let mem ← mergePrev (mergeNext (setIsFree s.mem b.addr true) b.addr) d.addr
        return { s with mem }) := by
  have hmarked := h.setIsFree (f := true) apart
  have hapart := (@SameExtents.mark b xs ys true).apart.mpr apart
  have hmerged : Laid (mergeNext (setIsFree s.mem b.addr true) b.addr) 0
      (xs ++ join (b.mark true) ys) := mergeNext_spec hmarked hapart rfl
  obtain ⟨d, zs, hjoin, haddr, hfree⟩ := join_eq_cons (b.mark true) ys
  have haddr : d.addr = b.addr := haddr
  have hapart' := sameExtents_join.apart.mpr hapart
  rw [hjoin] at hmerged hapart'
  refine ⟨d, zs, hjoin, haddr, hfree, hmerged, hapart', ?_⟩
  rw [haddr]
  exact free_eq s b

/-- `free` of the first block of the list. -/
theorem free_first (h : Laid s.mem 0 (b :: ys)) (apart : BlocksApart (b :: ys)) :
    ∃ mem, free s b.data = .ok { s with mem } ∧ Laid mem 0 (join (b.mark true) ys) := by
  obtain ⟨d, zs, hjoin, -, -, hmerged, -, hok⟩ := @free_cons b [] ys _ _ h apart
  rw [List.nil_append] at hmerged
  rw [mergePrev_first hmerged] at hok
  exact ⟨_, hok, hjoin ▸ hmerged⟩

/-- `free` of a later block. It stops on a null pointer exactly where the merge with the block
before would leave the last block of the list. -/
theorem free_later (h : Laid s.mem 0 (xs ++ a :: b :: ys))
    (apart : BlocksApart (xs ++ a :: b :: ys)) :
    ((Mergeable a (b.mark true) ∧ (join (b.mark true) ys).length = 1) ∧
        free s b.data = .error .nullDeref) ∨
      (¬ (Mergeable a (b.mark true) ∧ (join (b.mark true) ys).length = 1) ∧
        ∃ mem, free s b.data = .ok { s with mem } ∧
          Laid mem 0 (xs ++ join a (join (b.mark true) ys))) := by
  rw [List.append_cons] at h apart
  obtain ⟨d, zs, hjoin, haddr, hfree, hmerged, hapart, hstep⟩ := free_cons h apart
  rw [← List.append_cons] at hmerged hapart
  have hprev := mergePrev_spec hmerged hapart hfree
  have hsame : Mergeable a d ↔ Mergeable a (b.mark true) := by
    rw [Mergeable, Mergeable, hfree, haddr]
    rfl
  have hlast : (d :: zs).length = 1 ↔ zs = [] := by
    rw [List.length_cons, Nat.add_eq_right, List.length_eq_zero_iff]
  rw [hstep, hjoin, hlast, ← hsame]
  rcases hprev with ⟨hends, herror⟩ | ⟨hgoes, mem, hok, hlaid⟩
  · exact .inl ⟨hends, herror ▸ rfl⟩
  · exact .inr ⟨hgoes, mem, hok ▸ rfl, hlaid⟩

end Operations

end PrintOS.Heap
