import Mathlib.Data.List.Chain
import Mathlib.Data.List.Perm.Basic
import PrintOS.Lib.Interval
import PrintOS.Lib.Linked
import PrintOS.Memory.Heap

/-!
# What the heap is for: an abstract pool of blocks

The heap without its memory: blocks in list order, the page ranges they lie in, and the live
allocations. A `Block` cannot be at null, empty, or past the last address. `Pool.Step` says what
each operation may do to the pool, and `Pool.Step.invariant` that it keeps the pool's invariant:
blocks apart, tiling the page ranges exactly, no block free next to a free one that it meets,
and one allocated block for each live allocation, large enough for it.

Nothing here mentions memory. `PrintOS.Laws.Memory.Heap` shows that every completed operation of
the code is one of these steps.
-/

namespace PrintOS.Heap

open Interval (Apart Before Covered Cut)

/-! ## Blocks -/

/-- A block of the heap, within the 64-bit addresses. -/
@[ext] structure Block where
  addr : Nat
  bytes : Nat
  isFree : Bool
  addr_pos : 0 < addr
  bytes_pos : 0 < bytes
  fits : addr + BLOCK_HEADER_SZ + bytes ≤ 2 ^ 64

namespace Block

/-- The first address after the block. -/
def stop (b : Block) : Nat := b.addr + BLOCK_HEADER_SZ + b.bytes

/-- The address of the block's data. -/
def data (b : Block) : Nat := b.addr + BLOCK_HEADER_SZ

theorem addr_lt_stop (b : Block) : b.addr < b.stop := by
  have hpos := b.bytes_pos
  unfold stop
  omega

/-- The block, free or allocated. -/
def mark (b : Block) (isFree : Bool) : Block := { b with isFree }

/-- The block with the one that begins where it ends. -/
def absorb (b c : Block) (meet : b.stop = c.addr) : Block where
  addr := b.addr
  bytes := b.bytes + (BLOCK_HEADER_SZ + c.bytes)
  isFree := b.isFree
  addr_pos := b.addr_pos
  bytes_pos := Nat.add_pos_left b.bytes_pos _
  fits := by
    have hfits := c.fits
    unfold stop at meet
    omega

/-- The first `n` bytes of the block, allocated. -/
def front (b : Block) (n : Nat) (pos : 0 < n) (room : n + BLOCK_HEADER_SZ < b.bytes) : Block where
  addr := b.addr
  bytes := n
  isFree := false
  addr_pos := b.addr_pos
  bytes_pos := pos
  fits := by
    have hfits := b.fits
    omega

/-- What is left of the block after its first `n` bytes, free. -/
def back (b : Block) (n : Nat) (room : n + BLOCK_HEADER_SZ < b.bytes) : Block where
  addr := b.data + n
  bytes := b.bytes - n - BLOCK_HEADER_SZ
  isFree := true
  addr_pos := by
    have hpos := b.addr_pos
    unfold data
    omega
  bytes_pos := by omega
  fits := by
    have hfits := b.fits
    unfold data
    omega

/-- The free block over some pages. -/
def ofPages (block pages : Nat) (nonnull : block ≠ 0) (some : 0 < pages)
    (within : block + pages * PAGE_SZ ≤ 2 ^ 64) : Block where
  addr := block
  bytes := pages * PAGE_SZ - BLOCK_HEADER_SZ
  isFree := true
  addr_pos := Nat.pos_of_ne_zero nonnull
  bytes_pos := by
    simp only [PAGE_SZ, FRAME_SZ, BLOCK_HEADER_SZ]
    omega
  fits := by
    simp only [PAGE_SZ, FRAME_SZ, BLOCK_HEADER_SZ] at within ⊢
    omega

/-- The block allocated for `n` bytes: split where a header and more would be left. -/
def allocate (b : Block) (n : Nat) (pos : 0 < n) : List Block :=
  if room : n + BLOCK_HEADER_SZ < b.bytes then [b.front n pos room, b.back n room]
  else [b.mark false]

theorem cut_absorb {b c : Block} (meet : b.stop = c.addr) :
    Cut addr stop (b.absorb c meet) b c where
  lower := rfl
  seam := meet
  upper := by
    simp only [stop, absorb] at meet ⊢
    omega

theorem cut_split {b : Block} {n : Nat} (pos : 0 < n) (room : n + BLOCK_HEADER_SZ < b.bytes) :
    Cut addr stop b (b.front n pos room) (b.back n room) where
  lower := rfl
  seam := rfl
  upper := by
    simp only [stop, back, data]
    omega

end Block

/-- The blocks do not overlap. -/
abbrev BlocksApart (bs : List Block) : Prop := bs.Pairwise (Apart Block.addr Block.stop)

/-- The blocks come in the order of their addresses. -/
abbrev BlocksOrdered (bs : List Block) : Prop := bs.Pairwise (Before Block.addr Block.stop)

/-- The byte is in a block. -/
abbrev BlocksCover (bs : List Block) (x : Nat) : Prop := Covered Block.addr Block.stop bs x

/-- Both blocks are free and the second begins where the first ends. -/
def Mergeable (b c : Block) : Prop := b.isFree = true ∧ c.isFree = true ∧ b.stop = c.addr

instance (b c : Block) : Decidable (Mergeable b c) :=
  inferInstanceAs (Decidable (_ ∧ _ ∧ _))

/-- No block is mergeable with its list successor. -/
def Settled (bs : List Block) : Prop := bs.IsChain fun b c => ¬ Mergeable b c

/-- The data addresses of the allocated blocks. -/
def allocated (bs : List Block) : List Nat := (bs.filter (!·.isFree)).map Block.data

/-- A block before others, merged with the first of them if it can be. -/
def join (b : Block) : List Block → List Block
  | [] => [b]
  | c :: ys => if h : Mergeable b c then b.absorb c h.2.2 :: ys else b :: c :: ys

variable {b c : Block} {xs ys : List Block} {n x : Nat}

theorem allocated_append : allocated (xs ++ ys) = allocated xs ++ allocated ys := by
  simp only [allocated, List.filter_append, List.map_append]

theorem allocated_cons_free (h : b.isFree = true) : allocated (b :: ys) = allocated ys := by
  simp only [allocated, List.filter_cons, h, Bool.not_true, Bool.false_eq_true, if_false]

theorem allocated_cons_taken (h : b.isFree = false) :
    allocated (b :: ys) = b.data :: allocated ys := by
  simp only [allocated, List.filter_cons, h, Bool.not_false, if_true, List.map_cons]

/-! ### The same extents in other blocks -/

/-- Two lists of blocks over the same bytes: the one is apart or in order when the other is, and
they cover the same bytes. -/
structure SameExtents (l l' : List Block) : Prop where
  apart : BlocksApart l ↔ BlocksApart l'
  ordered : BlocksOrdered l ↔ BlocksOrdered l'
  cover (x : Nat) : BlocksCover l x ↔ BlocksCover l' x

namespace SameExtents

theorem refl (l : List Block) : SameExtents l l := ⟨Iff.rfl, Iff.rfl, fun _ => Iff.rfl⟩

theorem symm {l l' : List Block} (h : SameExtents l l') : SameExtents l' l :=
  ⟨h.apart.symm, h.ordered.symm, fun x => (h.cover x).symm⟩

theorem trans {l l' l'' : List Block} (h : SameExtents l l') (h' : SameExtents l' l'') :
    SameExtents l l'' :=
  ⟨h.apart.trans h'.apart, h.ordered.trans h'.ordered, fun x => (h.cover x).trans (h'.cover x)⟩

/-- A mark changes no extent. -/
theorem mark {isFree : Bool} : SameExtents (xs ++ b.mark isFree :: ys) (xs ++ b :: ys) where
  apart := by
    simp only [BlocksApart, List.pairwise_append, List.pairwise_cons, List.forall_mem_cons]
    rfl
  ordered := by
    simp only [BlocksOrdered, List.pairwise_append, List.pairwise_cons, List.forall_mem_cons]
    rfl
  cover x := by
    simp only [BlocksCover, Interval.covered_append, Interval.covered_cons]
    rfl

/-- Neither does a cut. -/
theorem cut {c d : Block} (h : Cut Block.addr Block.stop b c d) :
    SameExtents (xs ++ c :: d :: ys) (xs ++ b :: ys) where
  apart := (Interval.pairwise_apart_cut h Block.addr_lt_stop).symm
  ordered := (Interval.pairwise_before_cut h Block.addr_lt_stop).symm
  cover _ := (Interval.covered_cut h Block.addr_lt_stop).symm

end SameExtents

/-! ### A block is allocated -/

section Allocate

variable {pos : 0 < n}

/-- The case split of `allocate`: the whole block, or its two parts. -/
theorem allocate_cases (b : Block) (n : Nat) (pos : 0 < n) :
    (b.bytes ≤ n + BLOCK_HEADER_SZ ∧ b.allocate n pos = [b.mark false]) ∨
      ∃ room, b.allocate n pos = [b.front n pos room, b.back n room] := by
  by_cases room : n + BLOCK_HEADER_SZ < b.bytes
  · exact .inr ⟨room, dif_pos room⟩
  · exact .inl ⟨by omega, dif_neg room⟩

theorem sameExtents_allocate : SameExtents (xs ++ b.allocate n pos ++ ys) (xs ++ b :: ys) := by
  rw [List.append_assoc]
  rcases allocate_cases b n pos with ⟨-, h⟩ | ⟨room, h⟩
  · rw [h]
    exact .mark
  · rw [h]
    exact .cut (Block.cut_split pos room)

theorem allocated_allocate : allocated (b.allocate n pos) = [b.data] := by
  rcases allocate_cases b n pos with ⟨-, h⟩ | ⟨room, h⟩
  · rw [h, allocated_cons_taken rfl]
    rfl
  · rw [h, allocated_cons_taken rfl, allocated_cons_free rfl]
    rfl

theorem first_allocate {z : Nat} : Linked.first Block.addr z (b.allocate n pos) = b.addr := by
  rcases allocate_cases b n pos with ⟨-, h⟩ | ⟨room, h⟩
  · rw [h]
    rfl
  · rw [h]
    rfl

/-- The allocated block has the bytes asked for. -/
theorem mem_allocate (enough : n ≤ b.bytes) :
    ∃ d ∈ b.allocate n pos, d.isFree = false ∧ d.data = b.data ∧ n ≤ d.bytes := by
  rcases allocate_cases b n pos with ⟨-, h⟩ | ⟨room, h⟩
  · exact ⟨b.mark false, by rw [h]; exact List.mem_cons_self, rfl, rfl, enough⟩
  · exact ⟨b.front n pos room, by rw [h]; exact List.mem_cons_self, rfl, rfl, Nat.le_refl n⟩

/-- An allocated block merges with nothing on its left; on its right stands what stood there. -/
theorem settled_allocate (left : Settled xs) (right : Settled ys)
    (seam : ∀ d ∈ ys.head?, ¬ (d.isFree = true ∧ b.stop = d.addr)) :
    Settled (xs ++ b.allocate n pos ++ ys) := by
  rcases allocate_cases b n pos with ⟨-, h⟩ | ⟨room, h⟩
  · rw [h, List.append_assoc]
    refine left.append (right.cons ?_) ?_
    · rintro d - ⟨hfree, -⟩
      cases hfree
    · rintro a - d hd ⟨-, hfree, -⟩
      cases hd
      cases hfree
  · rw [h, List.append_assoc]
    refine left.append (List.IsChain.cons_cons ?_ (right.cons ?_)) ?_
    · rintro ⟨hfree, -⟩
      cases hfree
    · rintro d hd ⟨-, hfree, hmeet⟩
      refine seam d hd ⟨hfree, ?_⟩
      rw [← hmeet]
      exact (Block.cut_split pos room).upper.symm
    · rintro a - d hd ⟨-, hfree, -⟩
      cases hd
      cases hfree

end Allocate

/-! ### A block is merged with its successor -/

/-- The case split of `join`: merged, or the same list. -/
theorem join_cases (b : Block) (ys : List Block) :
    (∃ c zs, ∃ h : Mergeable b c, ys = c :: zs ∧ join b ys = b.absorb c h.2.2 :: zs) ∨
      ((∀ c ∈ ys.head?, ¬ Mergeable b c) ∧ join b ys = b :: ys) := by
  cases ys with
  | nil =>
    refine .inr ⟨fun c hc => ?_, rfl⟩
    cases hc
  | cons c zs =>
    by_cases h : Mergeable b c
    · exact .inl ⟨c, zs, h, rfl, dif_pos h⟩
    · refine .inr ⟨fun d hd => ?_, dif_neg h⟩
      cases hd
      exact h

theorem sameExtents_join : SameExtents (xs ++ join b ys) (xs ++ b :: ys) := by
  rcases join_cases b ys with ⟨c, zs, h, rfl, hjoin⟩ | ⟨-, hjoin⟩
  · rw [hjoin]
    exact (SameExtents.cut (Block.cut_absorb h.2.2)).symm
  · rw [hjoin]
    exact .refl _

theorem allocated_join : allocated (join b ys) = allocated (b :: ys) := by
  rcases join_cases b ys with ⟨c, zs, h, rfl, hjoin⟩ | ⟨-, hjoin⟩
  · rw [hjoin, allocated_cons_free h.1, allocated_cons_free h.2.1]
    exact allocated_cons_free h.1
  · rw [hjoin]

theorem first_join {z : Nat} : Linked.first Block.addr z (join b ys) = b.addr := by
  rcases join_cases b ys with ⟨c, zs, h, rfl, hjoin⟩ | ⟨-, hjoin⟩
  · rw [hjoin]
    rfl
  · rw [hjoin]
    rfl

theorem join_eq_cons (b : Block) (ys : List Block) :
    ∃ d zs, join b ys = d :: zs ∧ d.addr = b.addr ∧ d.isFree = b.isFree := by
  rcases join_cases b ys with ⟨c, zs, h, rfl, hjoin⟩ | ⟨-, hjoin⟩
  · exact ⟨_, _, hjoin, rfl, rfl⟩
  · exact ⟨_, _, hjoin, rfl, rfl⟩

/-- No allocated block is lost in a merge. -/
theorem mem_join {d : Block} (hd : d ∈ b :: ys) (taken : d.isFree = false) : d ∈ join b ys := by
  rcases join_cases b ys with ⟨c, zs, h, rfl, hjoin⟩ | ⟨-, hjoin⟩
  · rw [hjoin]
    rcases List.mem_cons.mp hd with rfl | hd
    · rw [h.1] at taken
      cases taken
    rcases List.mem_cons.mp hd with rfl | hd
    · rw [h.2.1] at taken
      cases taken
    · exact List.mem_cons_of_mem _ hd
  · rw [hjoin]
    exact hd

/-- What a merge leaves is settled from the block on, and the block keeps its place and its mark
for what stands before it. -/
theorem settled_join (left : Settled (xs ++ [b])) (right : Settled ys) :
    Settled (xs ++ join b ys) := by
  rcases join_cases b ys with ⟨c, zs, h, rfl, hjoin⟩ | ⟨hno, hjoin⟩
  · obtain ⟨hfree, hfree', hmeet⟩ := h
    rw [hjoin]
    refine (left.left_of_append).append (right.tail.cons ?_) ?_
    · -- the merged block ends where `c` ended, and `c` was free
      rintro d hd ⟨-, hd_free, hd_meet⟩
      refine right.rel_head? hd ⟨hfree', hd_free, ?_⟩
      rw [← hd_meet]
      exact (Block.cut_absorb hmeet).upper
    · rintro a ha d hd ⟨ha_free, -, ha_meet⟩
      cases hd
      exact (List.isChain_append.mp left).2.2 a ha b rfl ⟨ha_free, hfree, ha_meet⟩
  · rw [hjoin]
    rw [List.append_cons]
    apply left.append right
    intro a ha d hd
    rw [List.getLast?_concat] at ha
    cases ha
    exact hno d hd

/-- What `allocate` did to a free block that merges with nothing after it, `join` undoes. -/
theorem join_allocate {pos : 0 < n} (free : b.isFree = true)
    (seam : ∀ c ∈ ys.head?, ¬ Mergeable b c) :
    ∃ d rest, b.allocate n pos = d :: rest ∧ d.addr = b.addr ∧
      join (d.mark true) (rest ++ ys) = b :: ys := by
  rcases allocate_cases b n pos with ⟨-, halloc⟩ | ⟨room, halloc⟩
  · have hmark : (b.mark false).mark true = b := by
      rw [Block.ext_iff]
      exact ⟨rfl, rfl, free.symm⟩
    refine ⟨_, _, halloc, rfl, ?_⟩
    rw [hmark, List.nil_append]
    rcases join_cases b ys with ⟨c, zs, h, rfl, -⟩ | ⟨-, hjoin⟩
    · exact absurd h (seam c rfl)
    · exact hjoin
  · have hmeet : Mergeable ((b.front n pos room).mark true) (b.back n room) := ⟨rfl, rfl, rfl⟩
    have hwhole : ((b.front n pos room).mark true).absorb (b.back n room) hmeet.2.2 = b := by
      rw [Block.ext_iff]
      refine ⟨rfl, ?_, free.symm⟩
      show n + (BLOCK_HEADER_SZ + (b.bytes - n - BLOCK_HEADER_SZ)) = b.bytes
      omega
    refine ⟨_, _, halloc, rfl, ?_⟩
    show join _ (b.back n room :: ys) = _
    rw [join, dif_pos hmeet, hwhole]

/-! ### Live allocations -/

/-- Each live allocation has an allocated block of its own, with room for it, and there are no
other allocated blocks. -/
structure Owns (live : List (Nat × Nat)) (bs : List Block) : Prop where
  owners : (live.map Prod.fst).Perm (allocated bs)
  room : ∀ a ∈ live, ∃ b ∈ bs, b.isFree = false ∧ b.data = a.1 ∧ a.2 ≤ b.bytes

namespace Owns

variable {live : List (Nat × Nat)}

/-- A free block is nobody's. -/
theorem free_iff (h : b.isFree = true) : Owns live (xs ++ b :: ys) ↔ Owns live (xs ++ ys) := by
  have hsame : allocated (xs ++ b :: ys) = allocated (xs ++ ys) := by
    rw [allocated_append, allocated_append, allocated_cons_free h]
  constructor
  · intro own
    refine ⟨hsame ▸ own.owners, fun a ha => ?_⟩
    obtain ⟨d, hd, taken, rest⟩ := own.room a ha
    refine ⟨d, ?_, taken, rest⟩
    rcases List.mem_append.mp hd with hd | hd
    · exact List.mem_append_left _ hd
    rcases List.mem_cons.mp hd with rfl | hd
    · rw [h] at taken
      cases taken
    · exact List.mem_append_right _ hd
  · intro own
    refine ⟨hsame ▸ own.owners, fun a ha => ?_⟩
    obtain ⟨d, hd, rest⟩ := own.room a ha
    refine ⟨d, ?_, rest⟩
    rcases List.mem_append.mp hd with hd | hd
    · exact List.mem_append_left _ hd
    · exact List.mem_append_right _ (List.mem_cons_of_mem _ hd)

/-- A block allocated for a new pointer. -/
theorem allocate {pos : 0 < n} (own : Owns live (xs ++ ys)) (enough : n ≤ b.bytes) :
    Owns ((b.data, n) :: live) (xs ++ b.allocate n pos ++ ys) where
  owners := by
    rw [allocated_append, allocated_append, allocated_allocate, List.append_assoc]
    have hperm := own.owners
    rw [allocated_append] at hperm
    exact (hperm.cons b.data).trans List.perm_middle.symm
  room := by
    intro a ha
    rcases List.mem_cons.mp ha with rfl | ha
    · obtain ⟨d, hd, rest⟩ := @mem_allocate b n pos enough
      exact ⟨d, List.mem_append_left _ (List.mem_append_right _ hd), rest⟩
    · obtain ⟨d, hd, rest⟩ := own.room a ha
      refine ⟨d, ?_, rest⟩
      rcases List.mem_append.mp hd with hd | hd
      · exact List.mem_append_left _ (List.mem_append_left _ hd)
      · exact List.mem_append_right _ hd

theorem join (own : Owns live (xs ++ b :: ys)) : Owns live (xs ++ Heap.join b ys) where
  owners := by
    rw [allocated_append, allocated_join, ← allocated_append]
    exact own.owners
  room := by
    intro a ha
    obtain ⟨d, hd, taken, rest⟩ := own.room a ha
    refine ⟨d, ?_, taken, rest⟩
    rcases List.mem_append.mp hd with hd | hd
    · exact List.mem_append_left _ hd
    · exact List.mem_append_right _ (mem_join hd taken)

end Owns

theorem addr_ne_of_apart (h : Apart Block.addr Block.stop b c) : b.addr ≠ c.addr := by
  intro heq
  have hb := b.addr_lt_stop
  have hc := c.addr_lt_stop
  rcases h with h | h
  · simp only [Before] at h
    omega
  · simp only [Before] at h
    omega

theorem nodup_addr {bs : List Block} (apart : BlocksApart bs) : (bs.map Block.addr).Nodup :=
  List.pairwise_map.mpr (apart.imp addr_ne_of_apart)

theorem nodup_allocated {bs : List Block} (apart : BlocksApart bs) : (allocated bs).Nodup := by
  refine List.pairwise_map.mpr ((apart.sublist List.filter_sublist).imp fun h heq => ?_)
  exact addr_ne_of_apart h (Nat.add_right_cancel heq)

/-- A freed pointer leaves its block to nobody, and every other pointer keeps its own. -/
theorem Owns.release {live : List (Nat × Nat)} (own : Owns live (xs ++ b :: ys))
    (apart : BlocksApart (xs ++ b :: ys)) (taken : b.isFree = false) :
    Owns (live.filter (·.1 ≠ b.data)) (xs ++ b.mark true :: ys) := by
  have hnodup := nodup_allocated apart
  have howners := own.owners
  rw [allocated_append, allocated_cons_taken taken] at hnodup howners
  have hnot := (List.nodup_cons.mp (List.perm_middle.nodup_iff.mp hnodup)).1
  refine (free_iff rfl).mpr ⟨?_, ?_⟩
  · have hfilter : (live.filter (·.1 ≠ b.data)).map Prod.fst =
        (live.map Prod.fst).filter (· ≠ b.data) := by
      rw [List.filter_map]
      rfl
    have hrest : (allocated xs ++ allocated ys).filter (· ≠ b.data) =
        allocated xs ++ allocated ys := by
      refine List.filter_eq_self.mpr fun p hp => decide_eq_true ?_
      rintro rfl
      exact hnot hp
    have hperm := (howners.trans List.perm_middle).filter (· ≠ b.data)
    rw [List.filter_cons_of_neg (by simp), hrest] at hperm
    rw [hfilter, allocated_append]
    exact hperm
  · intro a ha
    obtain ⟨hlive, hne⟩ := List.mem_filter.mp ha
    obtain ⟨d, hd, hrest⟩ := own.room a hlive
    refine ⟨d, ?_, hrest⟩
    rcases List.mem_append.mp hd with hd | hd
    · exact List.mem_append_left _ hd
    rcases List.mem_cons.mp hd with rfl | hd
    · exact absurd hrest.2.1.symm (of_decide_eq_true hne)
    · exact List.mem_append_right _ hd

/-! ## The pool -/

/-- Blocks in list order, page ranges, and live allocations. -/
structure Pool where
  blocks : List Block
  frames : List (Nat × Nat)
  live : List (Nat × Nat)

/-- The first address after a page range. -/
def rangeEnd (r : Nat × Nat) : Nat := r.1 + r.2 * PAGE_SZ

/-- Page ranges of which none was handed out before: no two overlap, and each lies within the
64-bit addresses. -/
structure Fresh (obtained : List (Nat × Nat)) : Prop where
  apart : obtained.Pairwise (Apart Prod.fst rangeEnd)
  fits : ∀ r ∈ obtained, rangeEnd r ≤ 2 ^ 64

/-- The block over some pages, with the size that the code computes for it. -/
theorem exists_ofPages {block pages : Nat} (nonnull : block ≠ 0) (some : 0 < pages)
    (within : rangeEnd (block, pages) ≤ 2 ^ 64) : ∃ b : Block, b.addr = block ∧ b.isFree = true ∧
      b.stop = rangeEnd (block, pages) ∧
      sub64 (u64 (pages * PAGE_SZ)) BLOCK_HEADER_SZ = b.bytes := by
  have hheader : BLOCK_HEADER_SZ < pages * PAGE_SZ := by
    simp only [PAGE_SZ, FRAME_SZ, BLOCK_HEADER_SZ]
    omega
  have hlt : pages * PAGE_SZ < 2 ^ 64 := by
    simp only [rangeEnd] at within
    omega
  refine ⟨.ofPages block pages nonnull some within, rfl, rfl, ?_, ?_⟩
  · simp only [Block.stop, Block.ofPages, rangeEnd]
    omega
  · rw [u64_of_lt hlt]
    exact sub64_of_le (Nat.le_of_lt hheader) hlt

theorem Fresh.of_append {old more : List (Nat × Nat)} (h : Fresh (old ++ more)) : Fresh old where
  apart := (List.pairwise_append.mp h.apart).1
  fits r hr := h.fits r (List.mem_append_left _ hr)

/-- Every page range but the first is above the first. -/
def Above (obtained : List (Nat × Nat)) : Prop :=
  ∀ r ∈ obtained.tail, Linked.first Prod.fst 0 obtained < r.1

theorem Above.of_append {old more : List (Nat × Nat)} (h : Above (old ++ more)) : Above old := by
  cases old with
  | nil =>
    intro r hr
    cases hr
  | cons r rs => exact fun q hq => h q (List.mem_append_left _ hq)

/-- Where the walk for a new block at `addr` stops: at the last block of the list, or at the first
one that is lower than `addr` and has a lower successor. -/
structure Place (addr : Nat) (xs : List Block) (c : Block) (ys : List Block) : Prop where
  passed : (xs ++ [c]).IsChain fun a b => ¬ (a.addr < addr ∧ b.addr < addr)
  stops : ∀ d ∈ ys.head?, c.addr < addr ∧ d.addr < addr

/-- A new block put after the one that the walk finds is in order only where that one is alone. -/
theorem Place.ordered_iff {c fresh : Block} (place : Place fresh.addr xs c ys)
    (ordered : BlocksOrdered (xs ++ c :: ys)) (low : xs = [] → Before Block.addr Block.stop c fresh) :
    BlocksOrdered ((xs ++ [c]) ++ fresh :: ys) ↔ xs = [] ∧ ys = [] := by
  constructor
  · intro h
    obtain ⟨-, hright, hbefore⟩ := List.pairwise_append.mp h
    constructor
    · rcases List.eq_nil_or_concat xs with rfl | ⟨ws, a, rfl⟩
      · rfl
      · -- the walk passed `a`, so `a` or `c` is above the new block
        have ha := hbefore a (by simp) fresh List.mem_cons_self
        have hc := hbefore c (by simp) fresh List.mem_cons_self
        have hpassed := place.passed
        rw [List.concat_eq_append, List.append_assoc, List.singleton_append,
          List.isChain_append_cons_cons] at hpassed
        exact absurd ⟨lt_of_lt_of_le a.addr_lt_stop ha, lt_of_lt_of_le c.addr_lt_stop hc⟩
          hpassed.2.1
    · cases ys with
      | nil => rfl
      | cons d zs =>
        have hd : fresh.stop ≤ d.addr := (List.pairwise_cons.mp hright).1 d List.mem_cons_self
        have hlow := (place.stops d rfl).2
        have hstop := fresh.addr_lt_stop
        omega
  · rintro ⟨rfl, rfl⟩
    exact List.pairwise_pair.mpr (low rfl)

namespace Pool

/-- What an operation may do to a pool. -/
inductive Step : Pool → Op → Pool → Prop
  /-- The first free block that is large enough is allocated. -/
  | reuse {xs ys : List Block} {b : Block} {n : Nat} {frames live : List (Nat × Nat)}
      (pos : 0 < n) (free : b.isFree = true) (enough : n ≤ b.bytes)
      (passed : ∀ a ∈ xs, ¬ (a.isFree = true ∧ n ≤ a.bytes)) :
    Step ⟨xs ++ b :: ys, frames, live⟩ (.malloc n)
      ⟨xs ++ b.allocate n pos ++ ys, frames, (b.data, n) :: live⟩
  /-- No block is large enough; a block over new pages is put into the list and allocated. -/
  | grow {xs ys : List Block} {c fresh : Block} {n : Nat} {frames live : List (Nat × Nat)}
      (pos : 0 < n) (nothing : ∀ a ∈ xs ++ c :: ys, ¬ (a.isFree = true ∧ n ≤ a.bytes))
      (enough : n ≤ fresh.bytes) (span : fresh.stop = rangeEnd (fresh.addr, n / PAGE_SZ + 1))
      (place : Place fresh.addr xs c ys) :
    Step ⟨xs ++ c :: ys, frames, live⟩ (.malloc n)
      ⟨(xs ++ [c]) ++ fresh.allocate n pos ++ ys, frames ++ [(fresh.addr, n / PAGE_SZ + 1)],
        (fresh.data, n) :: live⟩
  /-- The first block of the list is freed, and merged with its successor if it can be. -/
  | freeFirst {ys : List Block} {b : Block} {frames live : List (Nat × Nat)}
      (taken : b.isFree = false) :
    Step ⟨b :: ys, frames, live⟩ (.free b.data)
      ⟨join (b.mark true) ys, frames, live.filter (·.1 ≠ b.data)⟩
  /-- Another block is freed, and merged on both sides if it can be. -/
  | freeLater {ws ys : List Block} {a b : Block} {frames live : List (Nat × Nat)}
      (taken : b.isFree = false) :
    Step ⟨ws ++ a :: b :: ys, frames, live⟩ (.free b.data)
      ⟨ws ++ join a (join (b.mark true) ys), frames, live.filter (·.1 ≠ b.data)⟩
  /-- A write outside the headers. -/
  | write {P : Pool} {addr : Nat} {v : ByteMemory.Byte} : Step P (.write addr v) P

/-- The invariant of a pool. -/
structure Invariant (P : Pool) : Prop where
  root : Linked.first Block.addr 0 P.blocks = Linked.first Prod.fst 0 P.frames
  nonnull : Linked.first Block.addr 0 P.blocks ≠ 0
  apart : BlocksApart P.blocks
  cover (x : Nat) : BlocksCover P.blocks x ↔ Covered Prod.fst rangeEnd P.frames x
  settled : Settled P.blocks
  own : Owns P.live P.blocks

variable {P Q : Pool} {op : Op}

/-- A pool of one free block over one page range. -/
theorem Invariant.single {pages : Nat} (free : b.isFree = true)
    (span : b.stop = rangeEnd (b.addr, pages)) : Invariant ⟨[b], [(b.addr, pages)], []⟩ where
  root := rfl
  nonnull := b.addr_pos.ne'
  apart := List.pairwise_singleton _ _
  cover x := by
    rw [BlocksCover, Interval.covered_singleton, Interval.covered_singleton, Interval.Has,
      Interval.Has, span]
  settled := .singleton _
  own := by
    refine ⟨?_, fun a ha => by cases ha⟩
    rw [allocated_cons_free free]
    exact List.Perm.nil

/-- A block over pages that were not handed out before is apart from every block. -/
theorem Invariant.apart_fresh {fresh : Block} {pages : Nat} (inv : P.Invariant)
    (hfresh : Fresh (P.frames ++ [(fresh.addr, pages)]))
    (span : fresh.stop = rangeEnd (fresh.addr, pages)) :
    ∀ b ∈ P.blocks, Apart Block.addr Block.stop fresh b := by
  intro b hb
  refine Interval.apart_of_disjoint fresh.addr_lt_stop b.addr_lt_stop fun x hx hbx => ?_
  obtain ⟨r, hr, hrx⟩ := (inv.cover x).mp ⟨b, hb, hbx⟩
  have hapart := (List.pairwise_append.mp hfresh.apart).2.2 r hr _ List.mem_cons_self
  exact hapart.disjoint hrx ⟨hx.1, span ▸ hx.2⟩

/-- The list of a pool with a new block put in somewhere. -/
theorem Invariant.insert {fresh : Block} {pages : Nat} (inv : P.Invariant)
    (hfresh : Fresh (P.frames ++ [(fresh.addr, pages)]))
    (span : fresh.stop = rangeEnd (fresh.addr, pages)) (split : P.blocks = xs ++ ys) :
    BlocksApart (xs ++ fresh :: ys) ∧ ∀ x, BlocksCover (xs ++ fresh :: ys) x ↔
      Covered Prod.fst rangeEnd (P.frames ++ [(fresh.addr, pages)]) x := by
  constructor
  · refine (List.pairwise_middle Interval.apart_comm.mp).mpr (List.pairwise_cons.mpr ⟨?_, ?_⟩)
    · rw [← split]
      exact inv.apart_fresh hfresh span
    · rw [← split]
      exact inv.apart
  · intro x
    have hcover := inv.cover x
    rw [split, BlocksCover, Interval.covered_append] at hcover
    rw [BlocksCover, Interval.covered_append, Interval.covered_cons, Interval.covered_append,
      Interval.covered_singleton, ← hcover, or_left_comm, or_comm, Interval.Has, Interval.Has, span]

/-- The list begins at the same block after a step. -/
theorem Step.first_eq (step : Step P op Q) :
    Linked.first Block.addr 0 Q.blocks = Linked.first Block.addr 0 P.blocks := by
  cases step with
  | reuse => simp only [List.append_assoc, Linked.first_append, first_allocate, Linked.first_cons]
  | grow => simp only [List.append_assoc, Linked.first_append, Linked.first_cons]
  | freeFirst => exact first_join
  | freeLater => simp only [Linked.first_append, first_join, Linked.first_cons]
  | write => rfl

/-- The blocks of a list and the page ranges, in what an operation on extents keeps. -/
theorem Invariant.of_sameExtents (inv : P.Invariant) (hframes : Q.frames = P.frames)
    (hfirst : Linked.first Block.addr 0 Q.blocks = Linked.first Block.addr 0 P.blocks)
    (hsame : SameExtents Q.blocks P.blocks) (settled : Settled Q.blocks)
    (own : Owns Q.live Q.blocks) : Q.Invariant where
  root := by rw [hfirst, hframes]; exact inv.root
  nonnull := by rw [hfirst]; exact inv.nonnull
  apart := hsame.apart.mpr inv.apart
  cover x := by rw [hframes]; exact (hsame.cover x).trans (inv.cover x)
  settled := settled
  own := own

/-- **A step keeps the invariant**, if the pages it obtains are fresh. -/
theorem Step.invariant (step : Step P op Q) (hfresh : Fresh Q.frames) (inv : P.Invariant) :
    Q.Invariant := by
  have hfirst := step.first_eq
  cases step with
  | reuse pos free enough _ =>
    obtain ⟨hleft, hright, -⟩ := List.isChain_append.mp inv.settled
    refine inv.of_sameExtents rfl hfirst sameExtents_allocate ?_ ?_
    · exact settled_allocate hleft hright.tail fun d hd h =>
        hright.rel_head? hd ⟨free, h.1, h.2⟩
    · exact ((Owns.free_iff free).mp inv.own).allocate enough
  | @grow xs ys c fresh n frames live pos _ enough span place =>
    obtain ⟨hapart, hcover⟩ := inv.insert hfresh span (List.append_cons xs c ys)
    have hsame : SameExtents ((xs ++ [c]) ++ fresh.allocate n pos ++ ys)
        ((xs ++ [c]) ++ fresh :: ys) := sameExtents_allocate
    have hsettled := inv.settled
    have hown := inv.own
    simp only [List.append_cons xs c ys] at hsettled hown
    obtain ⟨hleft, hright, -⟩ := List.isChain_append.mp hsettled
    have hframes : Linked.first Prod.fst 0 (frames ++ [(fresh.addr, n / PAGE_SZ + 1)]) =
        Linked.first Prod.fst 0 frames := by
      cases frames with
      | nil => exact absurd inv.root inv.nonnull
      | cons r rs => rfl
    refine ⟨?_, ?_, hsame.apart.mpr hapart, fun x => (hsame.cover x).trans (hcover x), ?_,
      hown.allocate enough⟩
    · exact hfirst.trans (inv.root.trans hframes.symm)
    · rw [hfirst]
      exact inv.nonnull
    · refine settled_allocate hleft hright fun d hd h => ?_
      -- the walk stops before a block that is lower, so the new one does not end where it begins
      have hlow := (place.stops d hd).2
      have hstop := fresh.addr_lt_stop
      omega
  | freeFirst taken =>
    refine inv.of_sameExtents rfl hfirst ?_ ?_ ?_
    · exact (@sameExtents_join _ [] _).trans (@SameExtents.mark _ [] _ _)
    · exact @settled_join _ [] _ (.singleton _) inv.settled.tail
    · exact @Owns.join _ [] _ _ (@Owns.release _ [] _ _ inv.own inv.apart taken)
  | @freeLater ws ys a b frames live taken =>
    have hapart := inv.apart
    have hown := inv.own
    obtain ⟨hleft, -, hright⟩ := List.isChain_append_cons_cons.mp inv.settled
    simp only [List.append_cons ws a (b :: ys)] at hapart hown
    refine inv.of_sameExtents rfl hfirst ?_ ?_ ?_
    · apply sameExtents_join.trans
      simp only [List.append_cons ws a (join _ _), List.append_cons ws a (b :: ys)]
      exact sameExtents_join.trans .mark
    · exact settled_join hleft (@settled_join _ [] _ (.singleton _) hright.tail)
    · apply Owns.join
      rw [List.append_cons]
      exact (hown.release hapart taken).join
  | write => exact inv

/-! ### Blocks in the order of their addresses -/

/-- No block is free and has `n` bytes. -/
def Full (P : Pool) (n : Nat) : Prop := ∀ a ∈ P.blocks, ¬ (a.isFree = true ∧ n ≤ a.bytes)

/-- **A step keeps the order of addresses exactly when it does not grow a list of more than one
block.** -/
theorem Step.ordered_iff (step : Step P op Q) (inv : P.Invariant) (hfresh : Fresh Q.frames)
    (above : Above Q.frames) (ordered : BlocksOrdered P.blocks) :
    BlocksOrdered Q.blocks ↔ ∀ n, op = .malloc n → P.Full n → P.blocks.length = 1 := by
  cases step with
  | @reuse xs ys b n frames live pos free enough _ =>
    refine iff_of_true (sameExtents_allocate.ordered.mpr ordered) ?_
    intro m hm hfull
    cases hm
    exact absurd ⟨free, enough⟩ (hfull b (by simp))
  | @grow xs ys c fresh n frames live pos nothing enough span place =>
    have hlow : xs = [] → Before Block.addr Block.stop c fresh := by
      rintro rfl
      have hroot : c.addr = Linked.first Prod.fst 0 frames := inv.root
      have hlt : c.addr < fresh.addr := by
        cases frames with
        | nil => exact absurd hroot c.addr_pos.ne'
        | cons r rs => exact hroot ▸ above _ (List.mem_append_right _ List.mem_cons_self)
      rcases inv.apart_fresh hfresh span c (by simp) with h | h
      · have hstop : fresh.stop ≤ c.addr := h
        have hfresh_stop := fresh.addr_lt_stop
        omega
      · exact h
    rw [sameExtents_allocate.ordered, place.ordered_iff ordered hlow]
    constructor
    · rintro ⟨rfl, rfl⟩ _ _ _
      rfl
    · intro h
      have hlength := h n rfl nothing
      simp only [List.length_append, List.length_cons] at hlength
      exact ⟨List.eq_nil_of_length_eq_zero (by omega), List.eq_nil_of_length_eq_zero (by omega)⟩
  | freeFirst taken =>
    refine iff_of_true ?_ (fun n h => by cases h)
    exact ((@sameExtents_join _ [] _).trans (@SameExtents.mark _ [] _ _)).ordered.mpr ordered
  | @freeLater ws ys a b frames live taken =>
    refine iff_of_true ?_ (fun n h => by cases h)
    rw [sameExtents_join.ordered]
    simp only [List.append_cons ws a (b :: ys)] at ordered
    simp only [List.append_cons ws a (join _ _)]
    exact (sameExtents_join.trans .mark).ordered.mpr ordered
  | write => exact iff_of_true ordered (fun n h => by cases h)

/-- In order, no two blocks anywhere in the list are mergeable. -/
theorem Invariant.not_mergeable (inv : P.Invariant) (ordered : BlocksOrdered P.blocks)
    (hb : b ∈ P.blocks) (hc : c ∈ P.blocks) : ¬ Mergeable b c := by
  intro h
  obtain ⟨xs, ys, hsplit⟩ :=
    Interval.consecutive_of_meet ordered Block.addr_lt_stop hb hc h.2.2
  have hsettled := inv.settled
  rw [hsplit] at hsettled
  exact (List.isChain_append_cons_cons.mp hsettled).2.1 h

/-- Once everything is freed, each range of pages that cannot be made longer is one free block. -/
theorem Invariant.maximal (inv : P.Invariant) (ordered : BlocksOrdered P.blocks)
    (hlive : P.live = []) {lo hi : Nat} (hlt : lo < hi)
    (inside : ∀ x, lo ≤ x → x < hi → Covered Prod.fst rangeEnd P.frames x)
    (below : ∀ x, x + 1 = lo → ¬ Covered Prod.fst rangeEnd P.frames x)
    (beyond : ¬ Covered Prod.fst rangeEnd P.frames hi) :
    ∃ b ∈ P.blocks, b.isFree = true ∧ b.addr = lo ∧ b.stop = hi := by
  have hfree : ∀ b ∈ P.blocks, b.isFree = true := by
    have howners := inv.own.owners
    rw [hlive] at howners
    have hnone := List.map_eq_nil_iff.mp howners.nil_eq.symm
    intro b hb
    simpa using List.filter_eq_nil_iff.mp hnone b hb
  obtain ⟨b, hb, hlo, hlo'⟩ := (inv.cover lo).mpr (inside lo (Nat.le_refl lo) hlt)
  have hstart : b.addr = lo := by
    by_contra hne
    exact below (lo - 1) (by omega) ((inv.cover _).mp ⟨b, hb, by omega, by omega⟩)
  have hstop : b.stop ≤ hi := by
    by_contra hlong
    exact beyond ((inv.cover hi).mp ⟨b, hb, by omega, by omega⟩)
  refine ⟨b, hb, hfree b hb, hstart, Nat.le_antisymm hstop ?_⟩
  by_contra hshort
  -- the block that holds the next byte begins there, and both are free
  obtain ⟨c, hc, hc_lo, hc_hi⟩ := (inv.cover b.stop).mpr (inside b.stop (by omega) (by omega))
  have hne : b ≠ c := by
    rintro rfl
    omega
  have hmeet : b.stop = c.addr := by
    rcases inv.apart.forall hb hc hne with h | h
    · exact Nat.le_antisymm h hc_lo
    · have hcb : c.stop ≤ b.addr := h
      omega
  exact inv.not_mergeable ordered hb hc ⟨hfree b hb, hfree c hc, hmeet⟩

end Pool

end PrintOS.Heap
