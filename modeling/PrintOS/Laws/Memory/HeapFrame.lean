import PrintOS.Laws.Memory.HeapRun

/-!
# What the heap writes

`malloc` and `free` write to headers only: to those of the blocks that are in the list before or
after the operation (`Touches`). A live allocation overlaps none of them, so what is in it stays
until its owner writes to it (`payload_of_run`).
-/

namespace PrintOS.Heap

open ByteMemory (Mem Byte lastWrite lastWrite_cons writeAt)
open Linked (first last)

variable {m m' : Mem} {a b c : Block} {bs cs xs ys : List Block} {n p q v x : Nat}

/-- The byte is in no header of these blocks. -/
def OutsideHeaders (bs : List Block) (x : Nat) : Prop :=
  ∀ b ∈ bs, x < b.addr ∨ b.addr + BLOCK_HEADER_SZ ≤ x

/-- Nothing but headers of these blocks has changed. -/
def Touches (bs : List Block) (m m' : Mem) : Prop := ∀ x, OutsideHeaders bs x → m' x = m x

/-- A block of the list is at the address. -/
def BlockAt (bs : List Block) (block : Nat) : Prop := ∃ b ∈ bs, b.addr = block

theorem blockAt_of_mem (hb : b ∈ bs) : BlockAt bs b.addr := ⟨b, hb, rfl⟩

theorem OutsideHeaders.at (h : OutsideHeaders bs x) {block : Nat} (hblock : BlockAt bs block) :
    x < block ∨ block + BLOCK_HEADER_SZ ≤ x := by
  obtain ⟨b, hb, rfl⟩ := hblock
  exact h b hb

namespace Touches

variable {block : Nat}

theorem refl (bs : List Block) (m : Mem) : Touches bs m m := fun _ _ => rfl

theorem trans {m'' : Mem} (first : Touches bs m m') (second : Touches bs m' m'') :
    Touches bs m m'' :=
  fun x hx => (second x hx).trans (first x hx)

/-- Headers count by their addresses. -/
theorem mono (h : Touches bs m m') (sub : ∀ b ∈ bs, BlockAt cs b.addr) : Touches cs m m' :=
  fun x hx => h x fun b hb => hx.at (sub b hb)

theorem setPrev (h : Touches bs m m') (hblock : BlockAt bs block) :
    Touches bs m (setPrev m' block v) := by
  intro x hx
  have hout := hx.at hblock
  simp only [BLOCK_HEADER_SZ] at hout
  rw [Heap.setPrev, Mem.write64_of_outside (by omega)]
  exact h x hx

theorem setNext (h : Touches bs m m') (hblock : BlockAt bs block) :
    Touches bs m (setNext m' block v) := by
  intro x hx
  have hout := hx.at hblock
  simp only [BLOCK_HEADER_SZ] at hout
  rw [Heap.setNext, Mem.write64_of_outside (by omega)]
  exact h x hx

theorem setBytes (h : Touches bs m m') (hblock : BlockAt bs block) :
    Touches bs m (setBytes m' block v) := by
  intro x hx
  have hout := hx.at hblock
  simp only [BLOCK_HEADER_SZ] at hout
  rw [Heap.setBytes, Mem.write64_of_outside (by omega)]
  exact h x hx

theorem setIsFree {isFree : Bool} (h : Touches bs m m') (hblock : BlockAt bs block) :
    Touches bs m (setIsFree m' block isFree) := by
  intro x hx
  have hout := hx.at hblock
  simp only [BLOCK_HEADER_SZ] at hout
  rw [Heap.setIsFree, Mem.write_of_ne (by omega)]
  exact h x hx

theorem linkBack (h : Touches bs m m') (hys : ∀ d ∈ ys, BlockAt bs d.addr) :
    Touches bs m (linkBack m' (first Block.addr 0 ys) q) := by
  cases ys with
  | nil => exact h
  | cons d zs =>
    have hne : first Block.addr 0 (d :: zs) ≠ 0 := d.addr_pos.ne'
    rw [Heap.linkBack, if_pos hne]
    exact h.setPrev (hys d List.mem_cons_self)

/-- The stores of a merge. -/
theorem joinMem (hblock : BlockAt bs block) (hys : ∀ d ∈ ys, BlockAt bs d.addr) :
    Touches bs m (joinMem m block (first Block.addr 0 ys) v) :=
  .linkBack (.setNext (.setBytes (.refl bs m) hblock) hblock) hys

end Touches

/-! ## `malloc` -/

theorem takeBlock_touches (pos : 0 < n) {ptr : Nat} (h : Laid m p (xs ++ b :: ys))
    (apart : BlocksApart (xs ++ b :: ys)) (enough : n ≤ b.bytes)
    (ok : takeBlock m b.addr n = .ok (ptr, m')) : Touches (b.allocate n pos ++ ys) m m' := by
  rcases takeBlock_cases h apart pos enough with ⟨halloc, htake⟩ | ⟨room, halloc, htake⟩
  · obtain ⟨-, rfl⟩ := Prod.mk.inj (Except.ok.inj (htake.symm.trans ok))
    rw [halloc]
    exact (Touches.refl _ m).setIsFree ⟨b.mark false, List.mem_cons_self, rfl⟩
  · obtain ⟨-, rfl⟩ := Prod.mk.inj (Except.ok.inj (htake.symm.trans ok))
    rw [halloc]
    have hfront : BlockAt ([b.front n pos room, b.back n room] ++ ys) b.addr :=
      ⟨b.front n pos room, List.mem_cons_self, rfl⟩
    have hback : BlockAt ([b.front n pos room, b.back n room] ++ ys) (b.back n room).addr :=
      blockAt_of_mem (List.mem_cons_of_mem _ List.mem_cons_self)
    have hys : ∀ d ∈ ys, BlockAt ([b.front n pos room, b.back n room] ++ ys) d.addr :=
      fun d hd => blockAt_of_mem (List.mem_append_right _ hd)
    refine .setNext (.setBytes (.setPrev (.setNext (.linkBack ?_ hys) hback) hback) hfront) hfront
    exact .setBytes (.setIsFree (.setIsFree (.refl _ m) hfront) hback) hback

section Operations

variable {σ : Type} {k : Kernel σ} {s s' : State σ} {P Q : Pool}

/-- A list that is laid out in memory is the only one from its first block on. -/
theorem laid_unique {r : Nat} (h : Laid m p bs) (h' : Laid m r cs)
    (hfirst : first Block.addr 0 bs = first Block.addr 0 cs) : bs = cs := by
  induction bs generalizing cs p r with
  | nil =>
    cases cs with
    | nil => rfl
    | cons c cs => exact absurd hfirst.symm c.addr_pos.ne'
  | cons b bs ih =>
    cases cs with
    | nil => exact absurd hfirst b.addr_pos.ne'
    | cons c cs =>
      have haddr : b.addr = c.addr := hfirst
      obtain ⟨hb, hbs⟩ := h
      obtain ⟨hc, hcs⟩ := h'
      have hheader := hb.symm.trans ((congrArg (header m) haddr).trans hc)
      have hblock : b = c := Block.ext haddr (congrArg BlockHeader.bytes hheader)
        (congrArg BlockHeader.isFree hheader)
      rw [hblock, ih hbs hcs (congrArg BlockHeader.next hheader)]

theorem Holds.blocks_eq (holds : Holds s P) (holds' : Holds s Q) : P.blocks = Q.blocks :=
  laid_unique holds.laid holds'.laid (holds.root.symm.trans holds'.root)

/-- Growing the heap writes to the new block's header and to those of two blocks of the list. -/
theorem grow_touches (holds : Holds s P) (inv : P.Invariant) (ok : grow k n s = .ok s')
    (hfresh : Fresh s'.obtained) (holds' : Holds s' Q) : Touches Q.blocks s.mem s'.mem := by
  obtain ⟨xs, c, ys, fresh, hsplit, -, hspan, -, hgrown⟩ := grow_spec holds inv ok hfresh
  obtain ⟨block, prev, _, kernel, mem, linked, -, -, -, hmem, hprev, hlinked, rfl⟩ := grow_ok ok
  have hframes := hgrown.frames
  rw [holds.frames] at hframes hfresh
  obtain rfl : block = fresh.addr :=
    (Prod.mk.inj (List.singleton_inj.mp (List.append_cancel_left hframes))).1
  have hblocks := hgrown.blocks_eq holds'
  have hold : ∀ d ∈ P.blocks, BlockAt Q.blocks d.addr := by
    intro d hd
    rw [hsplit, List.append_cons] at hd
    refine blockAt_of_mem (hblocks ▸ ?_)
    exact (List.mem_append.mp hd).elim (List.mem_append_left _)
      fun h => List.mem_append_right _ (List.mem_cons_of_mem _ h)
  have hnew : BlockAt Q.blocks fresh.addr :=
    blockAt_of_mem (hblocks ▸ List.mem_append_right _ List.mem_cons_self)
  have hlaid : Laid mem 0 P.blocks := hmem ▸ laid_fresh holds inv hfresh hspan _
  obtain ⟨ws, d, zs, hsplit', -, hfound⟩ :=
    findBlockCloseBeforeAddr_eq hlaid inv.apart (first_ne_zero.mp inv.nonnull)
  rw [holds.root, hfound] at hprev
  obtain rfl := Except.ok.inj hprev
  have hd : d ∈ P.blocks := hsplit' ▸ List.mem_append_right _ List.mem_cons_self
  have hnext : (header linked fresh.addr).next = first Block.addr 0 zs := by
    have hfar : Far d.addr fresh.addr :=
      (far_of_apart (inv.apart_fresh hfresh hspan d hd)).symm
    have hafter : (header mem d.addr).next = first Block.addr 0 zs := by
      rw [hsplit'] at hlaid
      rw [hlaid.record_eq]
      rfl
    rw [hlinked, header_setNext_far hfar, header_setPrev d.addr_lt, hafter,
      header_setNext (first_lt zs)]
  have htouched : Touches Q.blocks s.mem mem := by
    rw [hmem]
    exact .setIsFree (.setBytes (.refl _ _) hnew) hnew
  have hlinks : Touches Q.blocks s.mem linked := by
    rw [hlinked]
    exact .setNext (.setPrev (.setNext htouched hnew) hnew) (hold d hd)
  dsimp only
  rw [hnext]
  refine hlinks.linkBack fun e he => hold e ?_
  rw [hsplit']
  exact List.mem_append_right _ (List.mem_cons_of_mem _ he)

/-- `malloc` writes to the headers that are in the list afterwards. -/
theorem malloc_touches {ptr : Nat} (holds : Holds s P) (inv : P.Invariant)
    (ok : malloc k s n = .ok (ptr, s')) (hfresh : Fresh s'.obtained) (holds' : Holds s' Q) :
    Touches Q.blocks s.mem s'.mem := by
  obtain ⟨pos, u, xs, b, ys, frames, mem, hgrown, hu, apart, enough, htake, rfl, hholds, -⟩ :=
    malloc_spec holds inv ok hfresh
  have hblocks : Q.blocks = xs ++ b.allocate n pos ++ ys := holds'.blocks_eq hholds
  have hfirst : Touches (xs ++ b :: ys) s.mem u.mem := by
    rcases hgrown with rfl | hgrow
    · exact .refl _ _
    · exact grow_touches holds inv hgrow hfresh hu
  have hsecond := takeBlock_touches pos hu.laid apart enough htake
  rw [hblocks]
  refine (hfirst.mono fun d hd => ?_).trans (hsecond.mono fun d hd => ?_)
  · rcases List.mem_append.mp hd with hd | hd
    · exact blockAt_of_mem (List.mem_append_left _ (List.mem_append_left _ hd))
    rcases List.mem_cons.mp hd with rfl | hd
    · -- the first part of the block has its address
      obtain ⟨e, he, -, hdata, -⟩ := @mem_allocate d n pos enough
      exact ⟨e, List.mem_append_left _ (List.mem_append_right _ he), Nat.add_right_cancel hdata⟩
    · exact blockAt_of_mem (List.mem_append_right _ hd)
  · rw [List.append_assoc]
    exact blockAt_of_mem (List.mem_append_right _ hd)

/-! ## `free` -/

theorem mergeNext_touches (h : Laid m p (xs ++ b :: ys)) (apart : BlocksApart (xs ++ b :: ys))
    (free : b.isFree = true) : Touches (b :: ys) m (mergeNext m b.addr) := by
  rcases mergeNext_cases h apart free with ⟨-, hmem⟩ | ⟨c, zs, _, rfl, -, hmem⟩
  · rw [hmem]
    exact .refl _ m
  · rw [hmem]
    refine .joinMem (blockAt_of_mem List.mem_cons_self) fun d hd => ?_
    exact blockAt_of_mem (List.mem_cons_of_mem _ (List.mem_cons_of_mem _ hd))

theorem mergePrev_touches (h : Laid m p (xs ++ a :: b :: ys))
    (apart : BlocksApart (xs ++ a :: b :: ys)) (free : b.isFree = true)
    (ok : mergePrev m b.addr = .ok m') : Touches (a :: ys) m m' := by
  rcases mergePrev_cases h apart free with ⟨-, hsame⟩ | ⟨hmerge, ⟨-, herror⟩ | ⟨-, hjoined⟩⟩
  · obtain rfl := Except.ok.inj (hsame.symm.trans ok)
    exact .refl _ m
  · cases herror.symm.trans ok
  · obtain rfl := Except.ok.inj (hjoined.symm.trans ok)
    refine .joinMem (blockAt_of_mem List.mem_cons_self) fun d hd => ?_
    exact blockAt_of_mem (List.mem_cons_of_mem _ hd)

/-- What stands after a merged block stood there before. -/
theorem mem_of_join {d e : Block} {zs : List Block} (hjoin : join b ys = d :: zs) (he : e ∈ zs) :
    e ∈ ys := by
  rcases join_cases b ys with ⟨c, ws, h, rfl, h'⟩ | ⟨-, h'⟩
  · obtain ⟨-, rfl⟩ := List.cons.inj (hjoin.symm.trans h')
    exact List.mem_cons_of_mem _ he
  · obtain ⟨-, rfl⟩ := List.cons.inj (hjoin.symm.trans h')
    exact he

/-- `free` writes to headers that were in the list before. -/
theorem free_touches {ptr : Nat} (holds : Holds s P) (inv : P.Invariant)
    (live : (ptr, n) ∈ P.live) (ok : free s ptr = .ok s') : Touches P.blocks s.mem s'.mem := by
  obtain ⟨b, hb, -, rfl, -⟩ := inv.own.room _ live
  obtain ⟨xs, ys, hsplit⟩ := List.append_of_mem hb
  have hlaid := holds.laid
  have hapart := inv.apart
  rw [hsplit] at hlaid hapart ⊢
  obtain ⟨d, zs, hjoin, haddr, hfree, hmerged, hapart', hstep⟩ := free_cons hlaid hapart
  obtain ⟨mem, hprev, ok⟩ := Except.bind_eq_ok.mp (hstep.symm.trans ok)
  obtain rfl := Except.ok.inj ok
  have hb : BlockAt (xs ++ b :: ys) b.addr :=
    blockAt_of_mem (List.mem_append_right _ List.mem_cons_self)
  have hys : ∀ e ∈ ys, BlockAt (xs ++ b :: ys) e.addr := fun e he =>
    blockAt_of_mem (List.mem_append_right _ (List.mem_cons_of_mem _ he))
  have hmarked : Touches (xs ++ b :: ys) s.mem (Heap.setIsFree s.mem b.addr true) :=
    .setIsFree (.refl _ _) hb
  have hnext : Touches (b.mark true :: ys) (Heap.setIsFree s.mem b.addr true)
      (mergeNext (Heap.setIsFree s.mem b.addr true) b.addr) :=
    mergeNext_touches (hlaid.setIsFree hapart) ((@SameExtents.mark b xs ys true).apart.mpr hapart)
      rfl
  generalize mergeNext (Heap.setIsFree s.mem b.addr true) b.addr = merged at hmerged hprev hnext
  refine (hmarked.trans (hnext.mono fun e he => ?_)).trans ?_
  · rcases List.mem_cons.mp he with rfl | he
    · exact hb
    · exact hys e he
  rcases List.eq_nil_or_concat xs with rfl | ⟨ws, a, rfl⟩
  · rw [List.nil_append] at hmerged
    rw [mergePrev_first hmerged] at hprev
    rw [Except.ok.inj hprev]
    exact .refl _ _
  · rw [List.concat_eq_append, ← List.append_cons] at hmerged hapart'
    refine (mergePrev_touches hmerged hapart' hfree hprev).mono fun e he => ?_
    rcases List.mem_cons.mp he with rfl | he
    · exact blockAt_of_mem (List.mem_append_left _ (by simp))
    · exact hys e (mem_of_join hjoin he)

/-! ## What is not written -/

/-- The headers are in the heap's pages. -/
theorem outsideHeaders_of_not_obtained (holds : Holds s P) (inv : P.Invariant)
    (hx : ¬ Obtained s.obtained x) : OutsideHeaders P.blocks x := by
  intro b hb
  by_contra hin
  have hbytes := b.bytes_pos
  have hcovered : b.addr ≤ x ∧ x < b.stop := by
    simp only [Block.stop]
    omega
  exact hx (holds.frames ▸ (inv.cover x).mp ⟨b, hb, hcovered⟩)

/-- They are outside of what is live. -/
theorem outsideHeaders_of_live {live : List (Nat × Nat)} {ptr : Nat} (own : Owns live bs)
    (apart : BlocksApart bs) (ha : (ptr, n) ∈ live) (hlo : ptr ≤ x) (hhi : x < ptr + n) :
    OutsideHeaders bs x := by
  intro b hb
  have hout := live_outside_headers own apart ha hb
  simp only at hout
  omega

/-- **An operation leaves what is live**: an allocation that it does not free stays live, and its
bytes stay but for its owner's writes. -/
theorem payload_of_step {s t : Session σ} {op : Op} {ptr : Nat} (sound : Sound s)
    (allowed : Allowed s op) (ok : step k s op = .ok t) (hfresh : Fresh t.heap.obtained)
    (live : (ptr, n) ∈ s.live) (kept : op ≠ .free ptr) :
    (ptr, n) ∈ t.live ∧ ∀ x, ptr ≤ x → x < ptr + n → (∀ v, op ≠ .write x v) →
      t.heap.mem x = s.heap.mem x := by
  obtain ⟨P, rep, inv⟩ := sound
  obtain ⟨Q, hstep, rep'⟩ := step_refines rep inv allowed ok hfresh
  have inv' := hstep.invariant (rep'.frames ▸ hfresh) inv
  cases op with
  | malloc bytes =>
    obtain ⟨⟨p, heap⟩, hmalloc, ok⟩ := Except.bind_eq_ok.mp ok
    obtain rfl := Except.ok.inj ok
    refine ⟨List.mem_cons_of_mem _ live, fun x hlo hhi _ => ?_⟩
    have live' : (ptr, n) ∈ Q.live := rep'.live ▸ List.mem_cons_of_mem _ live
    exact malloc_touches rep.toHolds inv hmalloc hfresh rep'.toHolds x
      (outsideHeaders_of_live inv'.own inv'.apart live' hlo hhi)
  | free p =>
    obtain ⟨heap, hfree, ok⟩ := Except.bind_eq_ok.mp ok
    obtain rfl := Except.ok.inj ok
    obtain ⟨bytes, hmem⟩ := allowed
    have hne : ptr ≠ p := fun h => kept (by rw [h])
    refine ⟨List.mem_filter.mpr ⟨live, decide_eq_true hne⟩, fun x hlo hhi _ => ?_⟩
    exact free_touches rep.toHolds inv (rep.live ▸ hmem) hfree x
      (outsideHeaders_of_live inv.own inv.apart (rep.live ▸ live) hlo hhi)
  | write addr v =>
    obtain rfl := Except.ok.inj ok
    refine ⟨live, fun x _ _ notWritten => Mem.write_of_ne ?_⟩
    exact fun h => notWritten v (by rw [h])

/-- The byte that an operation of a client writes. -/
def Op.writes : Op → Option (Nat × Byte)
  | .write addr v => some (addr, v)
  | _ => none

/-- A live allocation holds what was last written to it. -/
theorem payload_of_run {s t : Session σ} {ops : List Op} {ptr : Nat} (sound : Sound s)
    (run : Run (step k) Allowed s ops t) (hfresh : Fresh t.heap.obtained)
    (live : (ptr, n) ∈ s.live) (kept : .free ptr ∉ ops) :
    (ptr, n) ∈ t.live ∧ ∀ x, ptr ≤ x → x < ptr + n →
      t.heap.mem x = (lastWrite Op.writes x ops).getD (s.heap.mem x) := by
  induction run with
  | nil s => exact ⟨live, fun _ _ _ => rfl⟩
  | @cons s u t op ops allowed ok rest ih =>
    rw [List.mem_cons, not_or] at kept
    have hfresh' := rest.back (G := fun s => Fresh s.heap.obtained)
      (fun _ _ _ ok => fresh_of_step ok) hfresh
    obtain ⟨live', hmem⟩ := payload_of_step sound allowed ok hfresh' live (Ne.symm kept.1)
    obtain ⟨live'', hlast⟩ := ih (sound_of_step sound allowed ok hfresh') hfresh live' kept.2
    refine ⟨live'', fun x hlo hhi => ?_⟩
    have hstep : u.heap.mem x = (writeAt Op.writes x op).getD (s.heap.mem x) := by
      cases op with
      | write addr v =>
        obtain rfl := Except.ok.inj ok
        exact Mem.write_eq_writeAt rfl
      | _ => exact hmem x hlo hhi nofun
    rw [hlast x hlo hhi, hstep, lastWrite_cons, Option.getD_or]

end Operations

end PrintOS.Heap
