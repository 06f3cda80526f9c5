import Mathlib.Data.List.Find
import PrintOS.Laws.Memory.Paging
import PrintOS.Laws.Memory.PMem
import PrintOS.Laws.Memory.PMemBitmap
import PrintOS.Memory.PhysMem

/-!
# What the allocator and the tables see of a memory

A call of the allocator reads and writes bytes of its bitmap, whatever else is in the memory
(`SameBitmap.step`, `step_outside`). Setting an entry and clearing a page depend on the bytes that
are written to, and a walk depends on the entries of the tables.
-/

namespace PrintOS

open ByteMemory (Mem Byte)

/-! ## The allocator and the rest of its memory -/

namespace PMem

open PhysMem (BitmapByte)

variable {p q p' : PMem} {op : Op} {i x : Nat}

/-- The same allocator with the same bitmap, in memories that may differ elsewhere. -/
structure SameBitmap (p q : PMem) : Prop where
  fields : q = { p with mem := q.mem }
  bytes : ∀ x, BitmapByte p x → q.mem x = p.mem x

theorem bitmapByte_byteAddr (hi : i < p.frames) : BitmapByte p (p.bitmap.byteAddr i) := by
  simp only [BitmapByte, Bitmap.byteAddr_eq]
  omega

theorem SameBitmap.refl (p : PMem) : SameBitmap p p := ⟨rfl, fun _ _ => rfl⟩

theorem SameBitmap.frames (same : SameBitmap p q) : q.frames = p.frames := by
  rw [same.fields]

theorem SameBitmap.bitmap (same : SameBitmap p q) : q.bitmap = p.bitmap := by
  rw [same.fields]

theorem SameBitmap.lastFreeIdx (same : SameBitmap p q) : q.lastFreeIdx = p.lastFreeIdx := by
  rw [same.fields]

theorem SameBitmap.freeFrames (same : SameBitmap p q) : q.freeFrames = p.freeFrames := by
  rw [same.fields]

theorem SameBitmap.get (same : SameBitmap p q) (hi : i < p.frames) :
    q.bitmap.get q.mem i = p.bitmap.get p.mem i := by
  rw [same.bitmap]
  exact Bitmap.get_congr (same.bytes _ (bitmapByte_byteAddr hi))

theorem SameBitmap.locked (same : SameBitmap p q) (hi : i < p.frames) :
    q.locked i = p.locked i :=
  same.get hi

/-- One bit is set or cleared in both. -/
theorem SameBitmap.write (same : SameBitmap p q) {f : Mem → Mem}
    (only : OnlyIn (BitmapByte p) f) {free locked : Nat} :
    SameBitmap { p with mem := f p.mem, freeFrames := free, lockedFrames := locked }
      { q with bitmap := p.bitmap, mem := f q.mem, freeFrames := free, lockedFrames := locked } where
  fields := by rw [same.fields]
  bytes x hx := only.reads q.mem p.mem same.bytes x hx

theorem onlyIn_setBit (hi : i < p.frames) : OnlyIn (BitmapByte p) (p.bitmap.set · i) :=
  Bitmap.onlyIn_set (bitmapByte_byteAddr hi)

theorem onlyIn_unsetBit (hi : i < p.frames) : OnlyIn (BitmapByte p) (p.bitmap.unset · i) :=
  Bitmap.onlyIn_unset (bitmapByte_byteAddr hi)

theorem SameBitmap.lockFrame (same : SameBitmap p q) (hi : i < p.frames) :
    SameBitmap (p.lockFrame i) (q.lockFrame i) := by
  have hcounters : q.freeFrames = p.freeFrames ∧ q.lockedFrames = p.lockedFrames := by
    rw [same.fields]
    exact ⟨rfl, rfl⟩
  unfold PMem.lockFrame
  rw [same.get hi, hcounters.1, hcounters.2, same.bitmap]
  split
  · exact same.write (onlyIn_setBit hi)
  · exact same

theorem SameBitmap.freeFrame (same : SameBitmap p q) (hi : i < p.frames) :
    SameBitmap (p.freeFrame i) (q.freeFrame i) := by
  have hcounters : q.freeFrames = p.freeFrames ∧ q.lockedFrames = p.lockedFrames := by
    rw [same.fields]
    exact ⟨rfl, rfl⟩
  unfold PMem.freeFrame
  rw [same.get hi, hcounters.1, hcounters.2, same.bitmap]
  split
  · exact same.write (onlyIn_unsetBit hi)
  · exact same

theorem SameBitmap.foldl_lockFrame {l : List Nat} (same : SameBitmap p q)
    (hl : ∀ i ∈ l, i < p.frames) : SameBitmap (l.foldl PMem.lockFrame p) (l.foldl PMem.lockFrame q) := by
  induction l generalizing p q with
  | nil => exact same
  | cons i rest ih =>
    refine ih (same.lockFrame (hl i List.mem_cons_self)) fun j hj => ?_
    rw [frames_lockFrame]
    exact hl j (List.mem_cons_of_mem _ hj)

theorem SameBitmap.findFree (same : SameBitmap p q) : q.findFree = p.findFree := by
  unfold PMem.findFree
  rw [same.frames, same.lastFreeIdx]
  refine List.find?_congr fun i hi => ?_
  have hrange := List.mem_range'_1.mp hi
  rw [same.get (by omega)]

/-- The search looks at the frames of its range. -/
theorem searchRun_congr {isLocked isLocked' : Nat → Bool} {number turns i s e : Nat}
    (h : ∀ j, i ≤ j → j < i + turns → isLocked' j = isLocked j) :
    searchRun isLocked' number turns i s e = searchRun isLocked number turns i s e := by
  induction turns generalizing i s e with
  | zero => rfl
  | succ turns ih =>
    have hi := h i (Nat.le_refl i) (by omega)
    have hrest : ∀ s e, searchRun isLocked' number turns (i + 1) s e =
        searchRun isLocked number turns (i + 1) s e :=
      fun s e => ih fun j h1 h2 => h j (by omega) (by omega)
    simp only [searchRun, hi, hrest]

theorem SameBitmap.findFrames (same : SameBitmap p q) (number : Nat) :
    q.findFrames number = p.findFrames number := by
  unfold PMem.findFrames
  rw [same.frames, same.lastFreeIdx]
  have hsearch : searchRun (q.bitmap.get q.mem) number (p.frames - p.lastFreeIdx) p.lastFreeIdx 0 0 =
      searchRun (p.bitmap.get p.mem) number (p.frames - p.lastFreeIdx) p.lastFreeIdx 0 0 :=
    searchRun_congr fun j _ hj => same.get (by omega)
  rw [hsearch]

/-- A request sees the bitmap only, and sets a bit of it. -/
theorem SameBitmap.requestFrame {ptr : Nat} (same : SameBitmap p q)
    (ok : p.requestFrame = .ok (ptr, p')) :
    ∃ q', q.requestFrame = .ok (ptr, q') ∧ SameBitmap p' q' := by
  have hfree : 0 < q.freeFrames := same.freeFrames ▸ (requestFrame_ok ok).1
  obtain ⟨-, ⟨hnone, rfl, rfl⟩ | ⟨i, hsome, rfl, rfl⟩⟩ := requestFrame_ok ok
  · refine ⟨q, ?_, same⟩
    simp only [PMem.requestFrame, kassert_of hfree, same.findFree, hnone]
    rfl
  · have hlock := same.lockFrame (findFree_some hsome).2.2
    refine ⟨{ q.lockFrame i with lastFreeIdx := i }, ?_, ?_, hlock.bytes⟩
    · simp only [PMem.requestFrame, kassert_of hfree, same.findFree, hsome]
      rfl
    · rw [hlock.fields]

/-- **An allocator works on its bitmap**: whatever else is in the memory, a call does the same. -/
theorem SameBitmap.step (same : SameBitmap p q) (adm : InRange p op) (ok : p.step op = .ok p') :
    ∃ q', q.step op = .ok q' ∧ SameBitmap p' q' := by
  cases op with
  | requestFrame =>
    obtain ⟨ptr, hreq⟩ := step_requestFrame ok
    obtain ⟨q', hreq', same'⟩ := same.requestFrame hreq
    exact ⟨q', by rw [PMem.step, hreq']; rfl, same'⟩
  | requestFrames number =>
    obtain ⟨ptr, hreq⟩ := step_requestFrames ok
    obtain ⟨first, last, hfind, -, rfl⟩ := requestFrames_ok hreq
    obtain ⟨-, -, -, hlast, -⟩ := findFrames_ok hfind
    refine ⟨(frameRange first last).foldl PMem.lockFrame q, ?_, same.foldl_lockFrame fun j hj => ?_⟩
    · rw [PMem.step, PMem.requestFrames, same.findFrames, hfind]
      rfl
    · have := (mem_frameRange.mp hj).2
      omega
  | lockFrame idx =>
    cases ok
    exact ⟨_, rfl, same.lockFrame adm⟩
  | freeFrame idx =>
    cases ok
    exact ⟨_, rfl, same.freeFrame adm⟩

/-! ## What a call writes -/

theorem lockFrame_outside (hi : i < p.frames) (hx : ¬ BitmapByte p x) :
    (p.lockFrame i).mem x = p.mem x := by
  unfold lockFrame
  split
  · exact (onlyIn_setBit hi).writes p.mem x hx
  · rfl

theorem freeFrame_outside (hi : i < p.frames) (hx : ¬ BitmapByte p x) :
    (p.freeFrame i).mem x = p.mem x := by
  unfold freeFrame
  split
  · exact (onlyIn_unsetBit hi).writes p.mem x hx
  · rfl

theorem foldl_lockFrame_outside {l : List Nat} (hl : ∀ i ∈ l, i < p.frames)
    (hx : ¬ BitmapByte p x) : (l.foldl lockFrame p).mem x = p.mem x := by
  induction l generalizing p with
  | nil => rfl
  | cons i rest ih =>
    rw [List.foldl_cons, ih, lockFrame_outside (hl i List.mem_cons_self) hx]
    · rw [frames_lockFrame]
      exact fun j hj => hl j (List.mem_cons_of_mem _ hj)
    · rwa [BitmapByte, frames_lockFrame, bitmap_lockFrame]

theorem step_bitmap (ok : p.step op = .ok q) : q.bitmap = p.bitmap := by
  cases op with
  | requestFrame =>
    obtain ⟨ptr, hreq⟩ := step_requestFrame ok
    obtain ⟨-, ⟨-, -, rfl⟩ | ⟨i, -, -, rfl⟩⟩ := requestFrame_ok hreq
    · rfl
    · exact bitmap_lockFrame
  | requestFrames number =>
    obtain ⟨ptr, hreq⟩ := step_requestFrames ok
    obtain ⟨first, last, -, -, rfl⟩ := requestFrames_ok hreq
    exact foldl_keeps PMem.bitmap (fun _ _ => bitmap_lockFrame) _ _
  | lockFrame idx =>
    cases ok
    exact bitmap_lockFrame
  | freeFrame idx =>
    cases ok
    exact bitmap_freeFrame

/-- The bytes of the bitmap stay where they are. -/
theorem step_bitmapByte (ok : p.step op = .ok q) : BitmapByte q x ↔ BitmapByte p x := by
  rw [BitmapByte, BitmapByte, step_bitmap ok, step_frames ok]

/-- A call writes to the bitmap, and to no other memory. -/
theorem step_outside (adm : InRange p op) (ok : p.step op = .ok q) (hx : ¬ BitmapByte p x) :
    q.mem x = p.mem x := by
  cases op with
  | requestFrame =>
    obtain ⟨ptr, hreq⟩ := step_requestFrame ok
    obtain ⟨-, ⟨-, -, rfl⟩ | ⟨i, hsome, -, rfl⟩⟩ := requestFrame_ok hreq
    · rfl
    · exact lockFrame_outside (findFree_some hsome).2.2 hx
  | requestFrames number =>
    obtain ⟨ptr, hreq⟩ := step_requestFrames ok
    obtain ⟨first, last, hfind, -, rfl⟩ := requestFrames_ok hreq
    obtain ⟨-, -, -, hlast, -⟩ := findFrames_ok hfind
    refine foldl_lockFrame_outside (fun j hj => ?_) hx
    have := (mem_frameRange.mp hj).2
    omega
  | lockFrame idx =>
    cases ok
    exact lockFrame_outside adm hx
  | freeFrame idx =>
    cases ok
    exact freeFrame_outside adm hx

/-- Nor does a run write elsewhere. -/
theorem outside_of_run {ops : List Op} (run : Run step InRange p ops q) :
    (∀ x, BitmapByte q x ↔ BitmapByte p x) ∧ ∀ x, ¬ BitmapByte p x → q.mem x = p.mem x := by
  induction run with
  | nil p => exact ⟨fun _ => Iff.rfl, fun _ _ => rfl⟩
  | cons adm ok _ ih =>
    obtain ⟨hbyte, hmem⟩ := ih
    refine ⟨fun x => (hbyte x).trans (step_bitmapByte ok), fun x hx => ?_⟩
    rw [hmem x fun h => hx ((step_bitmapByte ok).mp h), step_outside adm ok hx]

end PMem

/-! ## Entries in two memories -/

namespace Paging

/-- The bytes of a word are written alike where two memories agree. -/
theorem write64_congr {P : Nat → Prop} {m m' : Mem} {a v : Nat} (h : ∀ x, P x → m x = m' x) :
    ∀ x, P x → m.write64 a v x = m'.write64 a v x := by
  intro x hx
  by_cases hin : a ≤ x ∧ x < a + 8
  · obtain ⟨i, rfl⟩ := Nat.exists_eq_add_of_le hin.1
    have hi : i < 8 := by omega
    rw [Mem.write64, Mem.write64, Mem.writeLE_apply m a v hi, Mem.writeLE_apply m' a v hi]
  · rw [Mem.write64_of_outside (by omega), Mem.write64_of_outside (by omega), h x hx]

/-- So is a word that is computed from what was there, if the memories agree on it. -/
theorem update_congr {P : Nat → Prop} {m m' : Mem} {a : Nat} {f : Nat → Nat}
    (inside : ∀ x, a ≤ x → x < a + 8 → P x) (h : ∀ x, P x → m x = m' x) :
    ∀ x, P x → m.write64 a (f (m.read64 a)) x = m'.write64 a (f (m'.read64 a)) x := by
  have hread : m.read64 a = m'.read64 a := Mem.read64_congr fun x h1 h2 => h x (inside x h1 h2)
  rw [hread]
  exact write64_congr h

theorem setEntry_congr {P : Nat → Prop} {m m' : Mem} {a frame : Nat}
    (inside : ∀ x, a ≤ x → x < a + 8 → P x) (h : ∀ x, P x → m x = m' x) :
    ∀ x, P x → setEntry m a frame x = setEntry m' a frame x :=
  update_congr inside (update_congr inside (update_congr inside h))

/-- A cleared range is the same in two memories that agree outside of it. -/
theorem memset_congr {P : Nat → Prop} {m m' : Mem} {a n : Nat} {v : Byte}
    (h : ∀ x, P x → x < a ∨ a + n ≤ x → m x = m' x) :
    ∀ x, P x → memset m a v n x = memset m' a v n x := by
  intro x hx
  rw [memset, memset, Mem.fill_apply, Mem.fill_apply]
  split
  · rfl
  · exact h x hx (by omega)

/-- Walks read the entries of the tables only. -/
theorem Tables.lookupFrom_congr {PML4 : Nat} {m m' : Mem} {taken : List Nat}
    {paths : Nat → Option (List Nat)} (tables : Tables PML4 m taken paths)
    (same : ∀ t π j, paths t = some π → j < 512 → entry m' t j = entry m t j) {js : List Nat} :
    ∀ {x : Nat} {π : List Nat}, paths x = some π → π.length + js.length ≤ 4 →
      (∀ j ∈ js, j < 512) → lookupFrom m' x js = lookupFrom m x js := by
  induction js with
  | nil => exact fun _ _ _ => rfl
  | cons j rest ih =>
    intro x π hx hlen hlt
    have hj := hlt j List.mem_cons_self
    rw [List.length_cons] at hlen
    refine lookupFrom_step (same x π j hx hj) fun present hrest => ?_
    have hpos := List.length_pos_iff.mpr hrest
    have hlen' : (π ++ [j]).length = π.length + 1 := List.length_append
    exact ih (tables.edge x π j hx (by omega) hj present) (by omega)
      fun k hk => hlt k (List.mem_cons_of_mem _ hk)

/-- Tables are what their entries are. -/
theorem Tables.congr {PML4 : Nat} {m m' : Mem} {taken : List Nat}
    {paths : Nat → Option (List Nat)} (tables : Tables PML4 m taken paths)
    (same : ∀ t π j, paths t = some π → j < 512 → entry m' t j = entry m t j) :
    Tables PML4 m' taken paths := by
  refine ⟨tables.root, tables.owned, tables.aligned, ?_⟩
  intro t π i ht hπ hi present
  rw [same t π i ht hi] at present ⊢
  exact tables.edge t π i ht hπ hi present

end Paging

end PrintOS
