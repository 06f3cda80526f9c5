import Mathlib.Data.Nat.Count
import PrintOS.Memory.PMem

/-!
# Whole-run laws of the physical memory allocator

The abstraction is `PMem.locked`: which frames are locked. `step_locked` says once what a
completed call does to it, for every call, and the run laws are inductions over that.

* A frame stays locked until it is freed (`locked_of_run`), so a frame is handed out once
  between two frees.
* The two counters are the number of locked and of free frames (`Counted`), as long as every
  index is a frame of the machine.
* The search hint is only sound while no frame below it is freed (`HintSound`): `free_frame`
  does not move the hint back.
-/

namespace PrintOS.PMem

open ByteMemory (Mem)

variable {p q : PMem} {ops : List Op} {op : Op} {i f : Nat}

/-! ## One frame -/

theorem locked_lockFrame (p : PMem) (i j : Nat) :
    (p.lockFrame i).locked j = (p.locked j || decide (j = i)) := by
  unfold lockFrame
  split
  · exact p.bitmap.get_set p.mem i j
  · next h =>
    by_cases hj : j = i
    · subst hj
      have hset : p.locked j = true := by simpa [locked] using h
      simp [hset]
    · simp [hj]

theorem locked_freeFrame (p : PMem) (i j : Nat) :
    (p.freeFrame i).locked j = (p.locked j && !decide (j = i)) := by
  unfold freeFrame
  split
  · exact p.bitmap.get_unset p.mem i j
  · next h =>
    by_cases hj : j = i
    · subst hj
      have hclear : p.locked j = false := by simpa [locked] using h
      simp [hclear]
    · simp [hj]

@[simp] theorem frames_lockFrame : (p.lockFrame i).frames = p.frames := by
  unfold lockFrame; split <;> rfl

@[simp] theorem frames_freeFrame : (p.freeFrame i).frames = p.frames := by
  unfold freeFrame; split <;> rfl

@[simp] theorem bitmap_lockFrame : (p.lockFrame i).bitmap = p.bitmap := by
  unfold lockFrame; split <;> rfl

@[simp] theorem bitmap_freeFrame : (p.freeFrame i).bitmap = p.bitmap := by
  unfold freeFrame; split <;> rfl

@[simp] theorem lastFreeIdx_lockFrame : (p.lockFrame i).lastFreeIdx = p.lastFreeIdx := by
  unfold lockFrame; split <;> rfl

@[simp] theorem lastFreeIdx_freeFrame : (p.freeFrame i).lastFreeIdx = p.lastFreeIdx := by
  unfold freeFrame; split <;> rfl

/-! ## A loop over frames -/

/-- What each call keeps, a loop over frames keeps. -/
theorem foldl_keeps {α : Type} {β : Type} {g : PMem → α → PMem} (view : PMem → β)
    (keeps : ∀ p a, view (g p a) = view p) (l : List α) (p : PMem) :
    view (l.foldl g p) = view p := by
  induction l generalizing p with
  | nil => rfl
  | cons a rest ih => rw [List.foldl_cons, ih, keeps]

theorem locked_foldl_lockFrame (l : List Nat) (p : PMem) (j : Nat) :
    (l.foldl lockFrame p).locked j = (p.locked j || decide (j ∈ l)) := by
  induction l generalizing p with
  | nil => simp
  | cons i rest ih =>
    rw [List.foldl_cons, ih, locked_lockFrame, Bool.or_assoc]
    simp [Bool.decide_or]

theorem locked_foldl_freeFrame (l : List Nat) (p : PMem) (j : Nat) :
    (l.foldl freeFrame p).locked j = (p.locked j && !decide (j ∈ l)) := by
  induction l generalizing p with
  | nil => simp
  | cons i rest ih =>
    rw [List.foldl_cons, ih, locked_freeFrame, Bool.and_assoc]
    simp [Bool.decide_or]

theorem frames_foldl_lockFrame (l : List Nat) (p : PMem) :
    (l.foldl lockFrame p).frames = p.frames :=
  foldl_keeps frames (fun _ _ => frames_lockFrame) l p

theorem frames_foldl_freeFrame (l : List Nat) (p : PMem) :
    (l.foldl freeFrame p).frames = p.frames :=
  foldl_keeps frames (fun _ _ => frames_freeFrame) l p

/-! ## The searches -/

/-- `request_frame` finds a free frame at or above the hint. -/
theorem findFree_some (h : p.findFree = some i) :
    p.locked i = false ∧ p.lastFreeIdx ≤ i ∧ i < p.frames := by
  have hbit := List.find?_some h
  have hmem := List.mem_range'_1.mp (List.mem_of_find?_eq_some h)
  refine ⟨?_, by omega, by omega⟩
  simpa [locked] using hbit

/-- It finds the lowest one. -/
theorem findFree_lowest (h : p.findFree = some i) {j : Nat} (hlast : p.lastFreeIdx ≤ j)
    (hj : j < i) : p.locked j = true := by
  obtain ⟨-, pre, post, hsplit, hpre⟩ := List.find?_eq_some_iff_append.mp h
  have hi := (findFree_some h).2
  have hmem : j ∈ List.range' p.lastFreeIdx (p.frames - p.lastFreeIdx) := by
    rw [List.mem_range'_1]
    omega
  have hsorted : (pre ++ i :: post).Pairwise (· < ·) := by
    rw [← hsplit]
    exact List.pairwise_lt_range'
  rw [hsplit, List.mem_append] at hmem
  rcases hmem with hin | hin
  · simpa [locked] using hpre j hin
  · rcases List.mem_cons.mp hin with rfl | hin
    · omega
    · have := (List.pairwise_cons.mp (List.pairwise_append.mp hsorted).2.1).1 j hin
      omega

theorem findFree_none (h : p.findFree = none) {j : Nat} (hlast : p.lastFreeIdx ≤ j)
    (hj : j < p.frames) : p.locked j = true := by
  have hmem : j ∈ List.range' p.lastFreeIdx (p.frames - p.lastFreeIdx) := by
    rw [List.mem_range'_1]
    omega
  simpa [locked] using List.find?_eq_none.mp h j hmem

/-- **What a turn of the search in `request_frames` does**: it extends the open run, closes it, or
opens one. Whatever these keep holds where the loop ends, which is at the end of the range or at the
first run that is long enough. -/
theorem searchRun_rule {isLocked : Nat → Bool} {number : Nat} {I : Nat → Nat → Nat → Prop}
    (extended : ∀ {i first last}, I i first last → 0 < first → i - first ≠ number →
      isLocked i = false → I (i + 1) first i)
    (closed : ∀ {i first last}, I i first last → (0 < first → i - first ≠ number) →
      isLocked i = true → I (i + 1) 0 last)
    (opened : ∀ {i last}, I i 0 last → isLocked i = false → I (i + 1) i i) :
    ∀ {turns i first last s e : Nat}, I i first last →
      searchRun isLocked number turns i first last = (s, e) →
        I (i + turns) s e ∨
          ∃ j last', j < i + turns ∧ I j s last' ∧ 0 < s ∧ j - s = number ∧ e = j - 1 := by
  intro turns
  induction turns with
  | zero =>
    intro i first last s e h hend
    obtain ⟨rfl, rfl⟩ := Prod.mk.inj hend
    exact .inl h
  | succ turns ih =>
    intro i first last s e h hend
    rw [Nat.add_comm turns 1, ← Nat.add_assoc]
    unfold searchRun at hend
    split_ifs at hend with full free locked none
    · -- the run is long enough: the loop leaves at `i`, one past its end
      obtain ⟨rfl, rfl⟩ := Prod.mk.inj hend
      exact .inr ⟨i, last, by omega, h, full.1, full.2, rfl⟩
    · exact ih (extended h free.1 (fun hlen => full ⟨free.1, hlen⟩) free.2) hend
    · exact ih (closed h (fun hpos hlen => full ⟨hpos, hlen⟩) locked) hend
    · subst none
      exact ih (opened h (Bool.eq_false_iff.mpr locked)) hend
    · -- an open run at a free frame was extended above
      exact absurd ⟨Nat.pos_of_ne_zero none, Bool.eq_false_iff.mpr locked⟩ free

/-- The invariant of the search in `request_frames`, entered at index `i`: a run that is open
starts above frame 0, ends just below `i`, and all its frames are free. -/
structure OpenRun (isLocked : Nat → Bool) (low i first last : Nat) : Prop where
  low_le : first ≠ 0 → low ≤ first
  open_at : first ≠ 0 → first < i ∧ last + 1 = i
  free : ∀ j, first ≠ 0 → first ≤ j → j < i → isLocked j = false

section OpenRun

variable {isLocked : Nat → Bool} {number low i first last : Nat}

theorem OpenRun.extend (inv : OpenRun isLocked low i first last) (free : isLocked i = false) :
    OpenRun isLocked low (i + 1) first i := by
  refine ⟨inv.low_le, fun hf => ⟨by have := inv.open_at hf; omega, rfl⟩, ?_⟩
  intro j hf h1 h2
  rcases Nat.lt_succ_iff_lt_or_eq.mp h2 with h2 | rfl
  · exact inv.free j hf h1 h2
  · exact free

theorem OpenRun.nil : OpenRun isLocked low i 0 last :=
  ⟨fun hf => absurd rfl hf, fun hf => absurd rfl hf, fun _ hf => absurd rfl hf⟩

theorem OpenRun.single (hlow : low ≤ i) (free : isLocked i = false) :
    OpenRun isLocked low (i + 1) i i := by
  refine ⟨fun _ => hlow, fun _ => ⟨by omega, rfl⟩, ?_⟩
  intro j _ h1 h2
  obtain rfl : j = i := by omega
  exact free

/-- Where the search stops with a run, the run's frames are all free and inside the range. -/
theorem searchRun_free {turns s e : Nat}
    (h : searchRun isLocked number turns low 0 0 = (s, e)) (hs : s ≠ 0) :
    low ≤ s ∧ s ≤ e ∧ e < low + turns ∧ ∀ j, s ≤ j → j ≤ e → isLocked j = false := by
  have ends := searchRun_rule (I := fun i first last => low ≤ i ∧ OpenRun isLocked low i first last)
    (fun inv _ _ free => ⟨Nat.le_succ_of_le inv.1, inv.2.extend free⟩)
    (fun inv _ _ => ⟨Nat.le_succ_of_le inv.1, .nil⟩)
    (fun inv free => ⟨Nat.le_succ_of_le inv.1, .single inv.1 free⟩) ⟨Nat.le_refl low, .nil⟩ h
  rcases ends with ⟨-, inv⟩ | ⟨j, last, hj, ⟨-, inv⟩, -, -, rfl⟩
  · have hopen := inv.open_at hs
    exact ⟨inv.low_le hs, by omega, by omega, fun j h1 h2 => inv.free j hs h1 (by omega)⟩
  · have hopen := inv.open_at hs
    exact ⟨inv.low_le hs, by omega, by omega, fun j h1 h2 => inv.free j hs h1 (by omega)⟩

end OpenRun

/-- What `request_frames` goes on to lock is a run of free frames, at or above the hint and
above frame 0. -/
theorem findFrames_ok {number first last : Nat} (h : p.findFrames number = .ok (first, last)) :
    0 < first ∧ p.lastFreeIdx ≤ first ∧ first ≤ last ∧ last < p.frames ∧
      ∀ j, first ≤ j → j ≤ last → p.locked j = false := by
  unfold findFrames at h
  obtain ⟨_, -, h⟩ := Except.bind_eq_ok.mp h
  generalize hsearch : searchRun (p.bitmap.get p.mem) number (p.frames - p.lastFreeIdx)
    p.lastFreeIdx 0 0 = found at h
  obtain ⟨s, e⟩ := found
  obtain ⟨_, hstart, h⟩ := Except.bind_eq_ok.mp h
  obtain ⟨_, hend, h⟩ := Except.bind_eq_ok.mp h
  obtain ⟨_, -, h⟩ := Except.bind_eq_ok.mp h
  cases h
  rw [kassert_eq_ok] at hstart hend
  obtain ⟨h1, h2, h3, h4⟩ := searchRun_free hsearch (Nat.pos_iff_ne_zero.mp hstart)
  exact ⟨hstart, h1, h2, by omega, h4⟩

theorem mem_frameRange {first last j : Nat} :
    j ∈ frameRange first last ↔ first ≤ j ∧ j ≤ last := by
  rw [frameRange, List.mem_range'_1]
  omega

/-! ## One call

`step_locked` is the one place that looks into the calls. -/

theorem requestFrame_ok {ptr : Nat} (h : p.requestFrame = .ok (ptr, q)) :
    0 < p.freeFrames ∧ ((p.findFree = none ∧ ptr = 0 ∧ q = p) ∨
      ∃ i, p.findFree = some i ∧ ptr = idxToFramePtr i ∧
        q = { p.lockFrame i with lastFreeIdx := i }) := by
  unfold requestFrame at h
  obtain ⟨_, hpos, h⟩ := Except.bind_eq_ok.mp h
  refine ⟨kassert_eq_ok.mp hpos, ?_⟩
  cases hfind : p.findFree with
  | none =>
    rw [hfind] at h
    cases h
    exact .inl ⟨rfl, rfl, rfl⟩
  | some i =>
    rw [hfind] at h
    cases h
    exact .inr ⟨i, rfl, rfl, rfl⟩

theorem requestFrames_ok {number ptr : Nat} (h : p.requestFrames number = .ok (ptr, q)) :
    ∃ first last, p.findFrames number = .ok (first, last) ∧ ptr = idxToFramePtr first ∧
      q = (frameRange first last).foldl lockFrame p := by
  unfold requestFrames at h
  obtain ⟨⟨first, last⟩, hfind, h⟩ := Except.bind_eq_ok.mp h
  cases h
  exact ⟨first, last, hfind, rfl, rfl⟩

theorem step_requestFrame (h : p.step .requestFrame = .ok q) :
    ∃ ptr, p.requestFrame = .ok (ptr, q) := by
  obtain ⟨⟨ptr, q'⟩, hreq, h⟩ := Except.bind_eq_ok.mp h
  cases h
  exact ⟨ptr, hreq⟩

theorem step_requestFrames {number : Nat} (h : p.step (.requestFrames number) = .ok q) :
    ∃ ptr, p.requestFrames number = .ok (ptr, q) := by
  obtain ⟨⟨ptr, q'⟩, hreq, h⟩ := Except.bind_eq_ok.mp h
  cases h
  exact ⟨ptr, hreq⟩

/-- The frames that a call locks: those it hands out, or the one it names. -/
def locks (p : PMem) (op : Op) : List Nat :=
  match op with
  | .lockFrame idx => [idx]
  | op => p.handed op

/-- The frames that a call frees. -/
def Op.frees : Op → List Nat
  | .freeFrame idx => [idx]
  | _ => []

/-- **What a completed call does to the frames**: it locks `locks`, it frees `frees`, and it
leaves every other frame as it was. -/
theorem step_locked (h : p.step op = .ok q) (j : Nat) :
    q.locked j = ((p.locked j || decide (j ∈ p.locks op)) && !decide (j ∈ op.frees)) := by
  cases op with
  | requestFrame =>
    obtain ⟨ptr, hreq⟩ := step_requestFrame h
    obtain ⟨hpos, ⟨hnone, -, rfl⟩ | ⟨i, hsome, -, rfl⟩⟩ := requestFrame_ok hreq
    · simp [locks, handed, hnone, Op.frees]
    · have hlock := locked_lockFrame p i j
      simp only [locks, handed, if_pos hpos, hsome, Option.toList_some, Op.frees,
        List.mem_singleton, List.not_mem_nil, decide_false, Bool.not_false, Bool.and_true]
      exact hlock
  | requestFrames number =>
    obtain ⟨ptr, hreq⟩ := step_requestFrames h
    obtain ⟨first, last, hfind, -, rfl⟩ := requestFrames_ok hreq
    simp [locks, handed, hfind, Op.frees, locked_foldl_lockFrame]
  | lockFrame idx =>
    cases h
    simp [locks, Op.frees, locked_lockFrame]
  | freeFrame idx =>
    cases h
    simp [locks, handed, Op.frees, locked_freeFrame]

/-- A request hands out frames of the machine that were free. -/
theorem handed_spec (hf : f ∈ p.handed op) : p.locked f = false ∧ f < p.frames := by
  cases op with
  | requestFrame =>
    simp only [handed] at hf
    split at hf
    · obtain ⟨free, -, hlt⟩ := findFree_some (Option.mem_toList.mp hf)
      exact ⟨free, hlt⟩
    · cases hf
  | requestFrames number =>
    simp only [handed] at hf
    split at hf
    · next first last hfind =>
      obtain ⟨hfirst, hle⟩ := mem_frameRange.mp hf
      obtain ⟨-, -, -, hlast, free⟩ := findFrames_ok hfind
      exact ⟨free f hfirst hle, by omega⟩
    · cases hf
  | lockFrame idx => cases hf
  | freeFrame idx => cases hf

theorem handed_free (hf : f ∈ p.handed op) : p.locked f = false := (handed_spec hf).1

theorem step_frames (h : p.step op = .ok q) : q.frames = p.frames := by
  cases op with
  | requestFrame =>
    obtain ⟨ptr, hreq⟩ := step_requestFrame h
    obtain ⟨-, ⟨-, -, rfl⟩ | ⟨i, -, -, rfl⟩⟩ := requestFrame_ok hreq
    · rfl
    · exact frames_lockFrame
  | requestFrames number =>
    obtain ⟨ptr, hreq⟩ := step_requestFrames h
    obtain ⟨first, last, -, -, rfl⟩ := requestFrames_ok hreq
    exact frames_foldl_lockFrame _ _
  | lockFrame idx => cases h; exact frames_lockFrame
  | freeFrame idx => cases h; exact frames_freeFrame

/-- What the two calls on one frame of the machine keep, every call keeps: a request is some calls
of `lock_frame`, and sets the hint. -/
theorem step_keeps {P : PMem → Prop} (lock : ∀ {p i}, P p → i < p.frames → P (p.lockFrame i))
    (free : ∀ {p i}, P p → i < p.frames → P (p.freeFrame i))
    (hint : ∀ {p i}, P p → P { p with lastFreeIdx := i }) (h : P p) (adm : InRange p op)
    (ok : p.step op = .ok q) : P q := by
  cases op with
  | requestFrame =>
    obtain ⟨ptr, hreq⟩ := step_requestFrame ok
    obtain ⟨-, ⟨-, -, rfl⟩ | ⟨i, hsome, -, rfl⟩⟩ := requestFrame_ok hreq
    · exact h
    · exact hint (lock h (findFree_some hsome).2.2)
  | requestFrames number =>
    obtain ⟨ptr, hreq⟩ := step_requestFrames ok
    obtain ⟨first, last, hfind, -, rfl⟩ := requestFrames_ok hreq
    obtain ⟨-, -, -, hlast, -⟩ := findFrames_ok hfind
    -- the loop locks frames of the machine, whose number it does not change
    have inv : ∀ l : List Nat, (∀ i ∈ l, i < p.frames) → ∀ r : PMem, P r → r.frames = p.frames →
        P (l.foldl lockFrame r) := by
      intro l
      induction l with
      | nil => exact fun _ _ hr _ => hr
      | cons i rest ih =>
        intro hl r hr hframes
        exact ih (fun j hj => hl j (List.mem_cons_of_mem _ hj)) _
          (lock hr (hframes ▸ hl i List.mem_cons_self)) (frames_lockFrame.trans hframes)
    refine inv _ (fun j hj => ?_) p h rfl
    have := (mem_frameRange.mp hj).2
    omega
  | lockFrame idx =>
    cases ok
    exact lock h adm
  | freeFrame idx =>
    cases ok
    exact free h adm

/-! ## Ownership over a run -/

variable {Adm : PMem → Op → Prop}

/-- A locked frame stays locked as long as nobody frees it. -/
theorem locked_of_run (run : Run step Adm p ops q) (kept : Op.freeFrame f ∉ ops)
    (h : p.locked f = true) : q.locked f = true := by
  induction run with
  | nil p => exact h
  | @cons p t q op ops _ ok _ ih =>
    rw [List.mem_cons, not_or] at kept
    apply ih kept.2
    have hfrees : f ∉ op.frees := by
      cases op with
      | freeFrame idx =>
        intro hin
        exact kept.1 (by rw [List.mem_singleton.mp hin])
      | _ => exact List.not_mem_nil
    rw [step_locked ok, h]
    simp [hfrees]

/-- After a call has locked a frame, no request hands that frame out before it is freed. -/
theorem freed_of_handed {t : PMem} (ok : p.step op = .ok t) (hlock : f ∈ p.locks op)
    (run : Run step Adm t ops q) {op' : Op} (hf : f ∈ q.handed op') :
    Op.freeFrame f ∈ ops := by
  by_contra kept
  have hnotFree : f ∉ op.frees := by
    cases op with
    | freeFrame idx => exact absurd hlock List.not_mem_nil
    | _ => exact List.not_mem_nil
  have hlocked : t.locked f = true := by
    rw [step_locked ok]
    simp [hlock, hnotFree]
  have hstill := locked_of_run run kept hlocked
  rw [handed_free hf] at hstill
  cases hstill

/-- **No frame is handed out twice.** In any run, from any state, the frames that a request
locks for its caller were free before the call, and they are exactly the frames it changes;
and if an earlier call of the run locked one of them, for another caller or by `lock_frame`,
then it was freed in between. -/
theorem requests_own_their_frames {r : PMem} (run : Run step InRange p ops q)
    (ok : q.step op = .ok r) (hf : f ∈ q.handed op) :
    q.locked f = false ∧ (∀ j, r.locked j = true ↔ q.locked j = true ∨ j ∈ q.handed op) ∧
      ∀ pre earlier post s t, ops = pre ++ earlier :: post → Run step InRange p pre s →
        s.step earlier = .ok t → f ∈ s.handed earlier ∨ earlier = .lockFrame f →
          .freeFrame f ∈ post := by
  refine ⟨handed_free hf, ?_, ?_⟩
  · intro j
    have hop : q.locks op = q.handed op ∧ op.frees = [] := by
      cases op with
      | requestFrame => exact ⟨rfl, rfl⟩
      | requestFrames number => exact ⟨rfl, rfl⟩
      | lockFrame idx => cases hf
      | freeFrame idx => cases hf
    rw [step_locked ok, hop.1, hop.2]
    simp
  · intro pre earlier post s t hsplit before okEarlier hlocks
    have hlocks' : f ∈ s.locks earlier := by
      rcases hlocks with hin | rfl
      · cases earlier with
        | lockFrame idx => cases hin
        | _ => exact hin
      · exact List.mem_singleton_self f
    rw [hsplit] at run
    obtain ⟨s', before', rest⟩ := run.append_inv
    obtain rfl := before.unique before'
    cases rest with
    | cons _ okEarlier' after =>
      rw [okEarlier] at okEarlier'
      cases okEarlier'
      exact freed_of_handed okEarlier hlocks' after hf

/-- A machine with four usable frames from frame 1 on; the stack is in frame 5. -/
def smallMap : MemoryMap := ⟨[⟨EfiMemoryType.conventionalMemory.code, 0x1000, 4⟩], by decide⟩

/-- The allocator constructed for it. -/
def small : PMem := (start smallMap 0x5008 fun _ => 0).initFrames smallMap.descs 0x5800

set_option maxRecDepth 20000 in
/-- Frame 1 is handed out, freed, and handed out again. -/
theorem small_requests_own : ∃ q r, Run step InRange small [.requestFrame, .freeFrame 1] q ∧
    q.step .requestFrame = .ok r ∧ 1 ∈ q.handed .requestFrame ∧ q.locked 1 = false ∧
      Op.freeFrame 1 ∈ [Op.freeFrame 1] := by
  have run : ∃ q, Run step InRange small [.requestFrame, .freeFrame 1] q ∧
      (∃ r, q.step .requestFrame = .ok r) ∧ 1 ∈ q.handed .requestFrame := by
    refine ⟨_, .cons trivial rfl (.cons ?_ rfl (.nil _)), ⟨_, rfl⟩, by decide +kernel⟩
    show 1 < _
    decide +kernel
  obtain ⟨q, run, ⟨r, ok⟩, hf⟩ := run
  obtain ⟨hfree, -, hbetween⟩ := requests_own_their_frames run ok hf
  exact ⟨q, r, run, ok, hf, hfree, hbetween [] .requestFrame [.freeFrame 1] small _ rfl (.nil _) rfl
    (.inl (by decide +kernel))⟩

/-! ## The counters -/

/-- The number of indices below `n` grows by one when one index is added. -/
theorem count_add_one {P Q : Nat → Prop} [DecidablePred P] [DecidablePred Q] {n i : Nat}
    (hi : i < n) (hP : ¬ P i) (hQ : ∀ j, Q j ↔ P j ∨ j = i) :
    Nat.count Q n = Nat.count P n + 1 := by
  rw [Nat.count_eq_card_filter_range, Nat.count_eq_card_filter_range,
    ← Finset.card_insert_of_notMem (a := i) (by simp [hP])]
  congr 1
  ext j
  simp only [Finset.mem_filter, Finset.mem_range, Finset.mem_insert, hQ]
  constructor
  · rintro ⟨hj, h | h⟩
    · exact .inr ⟨hj, h⟩
    · exact .inl h
  · rintro (rfl | ⟨hj, h⟩)
    · exact ⟨hi, .inr rfl⟩
    · exact ⟨hj, .inl h⟩

theorem lockFrame_of_locked (hbit : p.locked i = true) : p.lockFrame i = p := by
  have hget : p.bitmap.get p.mem i = true := hbit
  simp [lockFrame, hget]

theorem freeFrame_of_free (hbit : p.locked i = false) : p.freeFrame i = p := by
  have hget : p.bitmap.get p.mem i = false := hbit
  simp [freeFrame, hget]

/-- The number of free frames of the machine. -/
def freeCount (p : PMem) : Nat := Nat.count (fun i => p.locked i = false) p.frames

theorem freeCount_le (p : PMem) : p.freeCount ≤ p.frames :=
  Nat.count_le _

theorem freeCount_pos_iff : 0 < p.freeCount ↔ ∃ i < p.frames, p.locked i = false := by
  rw [freeCount, Nat.pos_iff_ne_zero, Nat.count_ne_iff_exists]

/-- Locking a free frame takes it off the number of free ones. -/
theorem freeCount_lockFrame (hi : i < p.frames) (hbit : p.locked i = false) :
    p.freeCount = (p.lockFrame i).freeCount + 1 := by
  rw [freeCount, freeCount, frames_lockFrame]
  refine count_add_one hi (by simp [locked_lockFrame]) fun j => ?_
  by_cases hj : j = i
  · simp [hj, hbit]
  · simp [hj, locked_lockFrame]

/-- Freeing a locked one puts it back. -/
theorem freeCount_freeFrame (hi : i < p.frames) (hbit : p.locked i = true) :
    (p.freeFrame i).freeCount = p.freeCount + 1 := by
  rw [freeCount, freeCount, frames_freeFrame]
  refine count_add_one hi (by simp [hbit]) fun j => ?_
  rw [locked_freeFrame]
  by_cases hj : j = i <;> simp [hj]

/-- Both counters are what they are meant to count. -/
structure Counted (p : PMem) : Prop where
  fits : p.frames < 2 ^ 64
  locked_eq : p.lockedFrames = Nat.count (fun i => p.locked i = true) p.frames
  free_eq : p.freeFrames = Nat.count (fun i => p.locked i = false) p.frames

namespace Counted

theorem sum (h : Counted p) : p.freeFrames + p.lockedFrames = p.frames := by
  rw [h.free_eq, h.locked_eq, Nat.count_eq_card_filter_range, Nat.count_eq_card_filter_range]
  have hsplit := Finset.card_filter_add_card_filter_not (s := Finset.range p.frames)
    (fun i => p.locked i = false)
  simpa only [Bool.not_eq_false, Finset.card_range] using hsplit

theorem free_pos_iff (h : Counted p) : 0 < p.freeFrames ↔ ∃ i < p.frames, p.locked i = false := by
  rw [h.free_eq]
  exact freeCount_pos_iff

theorem locked_pos (h : Counted p) (hi : i < p.frames) (hbit : p.locked i = true) :
    0 < p.lockedFrames := by
  rw [h.locked_eq, Nat.pos_iff_ne_zero, Nat.count_ne_iff_exists]
  exact ⟨i, hi, hbit⟩

/-- Locking a free frame moves one frame from one counter to the other, without a wrap. -/
theorem lockFrame_counters (h : Counted p) (hi : i < p.frames) (hbit : p.locked i = false) :
    (p.lockFrame i).freeFrames + 1 = p.freeFrames ∧
      (p.lockFrame i).lockedFrames = p.lockedFrames + 1 := by
  have hpos := h.free_pos_iff.mpr ⟨i, hi, hbit⟩
  have hsum := h.sum
  have hfits := h.fits
  have hget : p.bitmap.get p.mem i = false := hbit
  simp only [lockFrame, hget, if_true]
  rw [sub64_of_le hpos (by omega), u64_of_lt (by omega)]
  omega

/-- Freeing a locked frame moves it back. -/
theorem freeFrame_counters (h : Counted p) (hi : i < p.frames) (hbit : p.locked i = true) :
    (p.freeFrame i).lockedFrames + 1 = p.lockedFrames ∧
      (p.freeFrame i).freeFrames = p.freeFrames + 1 := by
  have hpos := h.locked_pos hi hbit
  have hsum := h.sum
  have hfits := h.fits
  have hget : p.bitmap.get p.mem i = true := hbit
  simp only [freeFrame, hget, if_true]
  rw [sub64_of_le hpos (by omega), u64_of_lt (by omega)]
  omega

theorem lockFrame (h : Counted p) (hi : i < p.frames) : Counted (p.lockFrame i) := by
  cases hbit : p.locked i with
  | true => rwa [lockFrame_of_locked hbit]
  | false =>
    obtain ⟨hfree, hlocked⟩ := h.lockFrame_counters hi hbit
    refine ⟨by rw [frames_lockFrame]; exact h.fits, ?_, ?_⟩
    · rw [hlocked, h.locked_eq, frames_lockFrame]
      refine (count_add_one hi (by simp [hbit]) fun j => ?_).symm
      simp [locked_lockFrame]
    · have heq : p.freeFrames = p.freeCount := h.free_eq
      have hcount := freeCount_lockFrame hi hbit
      show (p.lockFrame i).freeFrames = (p.lockFrame i).freeCount
      omega

theorem freeFrame (h : Counted p) (hi : i < p.frames) : Counted (p.freeFrame i) := by
  cases hbit : p.locked i with
  | false => rwa [freeFrame_of_free hbit]
  | true =>
    obtain ⟨hlocked, hfree⟩ := h.freeFrame_counters hi hbit
    refine ⟨by rw [frames_freeFrame]; exact h.fits, ?_, ?_⟩
    · have hcount : Nat.count (fun j => p.locked j = true) p.frames =
          Nat.count (fun j => (p.freeFrame i).locked j = true) p.frames + 1 := by
        refine count_add_one hi (by simp [locked_freeFrame]) fun j => ?_
        by_cases hj : j = i
        · simp [hj, hbit]
        · simp [hj, locked_freeFrame]
      have heq := h.locked_eq
      rw [frames_freeFrame]
      omega
    · have heq : p.freeFrames = p.freeCount := h.free_eq
      have hcount := freeCount_freeFrame hi hbit
      show (p.freeFrame i).freeFrames = (p.freeFrame i).freeCount
      omega

/-- **The counters stay exact**: over every completed call on frames of the machine. -/
theorem step (h : Counted p) (adm : InRange p op) (ok : p.step op = .ok q) : Counted q :=
  step_keeps lockFrame freeFrame (fun h => ⟨h.fits, h.locked_eq, h.free_eq⟩) h adm ok

theorem of_run (h : Counted p) (run : Run PMem.step InRange p ops q) : Counted q :=
  run.invariant (fun _ _ _ hp adm ok => hp.step adm ok) h

end Counted

/-- What the first counter counts, but for a difference that it has had from the start. Like the
counter it is modulo 2^64: it is below zero where frames were locked that the machine does not
have. -/
structure Drift (d : Nat) (p : PMem) : Prop where
  fits : p.frames < 2 ^ 64
  free_eq : p.freeFrames = u64 (p.freeCount + d)

namespace Drift

variable {d : Nat}

/-- Every counter has some difference. -/
theorem exists_of_fits (fits : p.frames < 2 ^ 64) (hlt : p.freeFrames < 2 ^ 64) :
    ∃ d, Drift d p := by
  have hle := p.freeCount_le
  refine ⟨p.freeFrames + (2 ^ 64 - p.freeCount), fits, ?_⟩
  unfold u64
  omega

theorem lockFrame (h : Drift d p) (hi : i < p.frames) : Drift d (p.lockFrame i) := by
  cases hbit : p.locked i with
  | true => rwa [lockFrame_of_locked hbit]
  | false =>
    refine ⟨by rw [frames_lockFrame]; exact h.fits, ?_⟩
    have hcount := freeCount_lockFrame hi hbit
    have hfree : (p.lockFrame i).freeFrames = sub64 p.freeFrames 1 := by
      have hget : p.bitmap.get p.mem i = false := hbit
      simp only [PMem.lockFrame, hget, if_true]
    rw [hfree, h.free_eq, hcount]
    unfold sub64 u64
    omega

theorem freeFrame (h : Drift d p) (hi : i < p.frames) : Drift d (p.freeFrame i) := by
  cases hbit : p.locked i with
  | false => rwa [freeFrame_of_free hbit]
  | true =>
    refine ⟨by rw [frames_freeFrame]; exact h.fits, ?_⟩
    have hcount := freeCount_freeFrame hi hbit
    have hfree : (p.freeFrame i).freeFrames = u64 (p.freeFrames + 1) := by
      have hget : p.bitmap.get p.mem i = true := hbit
      simp only [PMem.freeFrame, hget, if_true]
    rw [hfree, h.free_eq, hcount]
    unfold u64
    omega

/-- A call on frames of the machine keeps the difference. -/
theorem step (h : Drift d p) (adm : InRange p op) (ok : p.step op = .ok q) : Drift d q :=
  step_keeps lockFrame freeFrame (fun h => ⟨h.fits, h.free_eq⟩) h adm ok

theorem of_run (h : Drift d p) (run : Run PMem.step InRange p ops q) : Drift d q :=
  run.invariant (fun _ _ _ hp adm ok => hp.step adm ok) h

end Drift

/-! ## The search hint -/

/-- Clients that leave frame 0 alone. -/
def NonNull (p : PMem) : Op → Prop
  | .lockFrame idx => idx < p.frames
  | .freeFrame idx => 0 < idx ∧ idx < p.frames
  | _ => True

/-- The call frees no locked frame below the hint. -/
def KeepsHint (p : PMem) : Op → Prop
  | .freeFrame idx => p.lastFreeIdx ≤ idx ∨ p.locked idx = false
  | _ => True

/-- No free frame lies below the hint. -/
def HintSound (p : PMem) : Prop := ∀ i < p.lastFreeIdx, p.locked i = true

theorem NonNull.inRange (h : NonNull p op) : InRange p op := by
  cases op with
  | freeFrame idx => exact h.2
  | lockFrame idx => exact h
  | _ => trivial

/-- Only `request_frame` moves the hint, and only past locked frames. -/
theorem HintSound.step (h : HintSound p) (keeps : KeepsHint p op) (ok : p.step op = .ok q) :
    HintSound q := by
  intro j hj
  rw [step_locked ok]
  cases op with
  | requestFrame =>
    obtain ⟨ptr, hreq⟩ := step_requestFrame ok
    obtain ⟨-, ⟨-, -, rfl⟩ | ⟨i, hsome, -, rfl⟩⟩ := requestFrame_ok hreq
    · simp [h j hj, Op.frees]
    · have hlocked : p.locked j = true := by
        by_cases hlast : j < p.lastFreeIdx
        · exact h j hlast
        · exact findFree_lowest hsome (by omega) hj
      simp [hlocked, Op.frees]
  | requestFrames number =>
    obtain ⟨ptr, hreq⟩ := step_requestFrames ok
    obtain ⟨first, last, -, -, rfl⟩ := requestFrames_ok hreq
    rw [foldl_keeps PMem.lastFreeIdx (fun _ _ => lastFreeIdx_lockFrame)] at hj
    simp [h j hj, Op.frees]
  | lockFrame idx =>
    cases ok
    rw [lastFreeIdx_lockFrame] at hj
    simp [h j hj, Op.frees]
  | freeFrame idx =>
    cases ok
    rw [lastFreeIdx_freeFrame] at hj
    have hne : j ≠ idx := by
      rintro rfl
      rcases keeps with hle | hfree
      · omega
      · rw [h j hj] at hfree
        cases hfree
    simp [h j hj, Op.frees, hne]

/-- The one way to break the hint. -/
theorem HintSound.keeps_of_step (h : HintSound q) (ok : p.step op = .ok q) : KeepsHint p op := by
  cases op with
  | freeFrame idx =>
    cases ok
    by_contra hnot
    simp only [KeepsHint, not_or, Nat.not_le] at hnot
    have hlocked := h idx (by rw [lastFreeIdx_freeFrame]; exact hnot.1)
    rw [locked_freeFrame] at hlocked
    simp at hlocked
  | _ => trivial

/-- So a run that keeps the hint sound all along frees no locked frame below it. -/
theorem keepsHint_of_sound {ops : List Op}
    (sound : ∀ pre post r, ops = pre ++ post → Run step NonNull p pre r → HintSound r)
    (run : Run step NonNull p ops q) :
    Run step (fun p op => NonNull p op ∧ KeepsHint p op) p ops q := by
  induction run with
  | nil p => exact .nil p
  | @cons p t q op ops adm ok _ ih =>
    have next : HintSound t := sound [op] ops t rfl (.cons adm ok (.nil t))
    refine .cons ⟨adm, next.keeps_of_step ok⟩ ok (ih fun pre post r hsplit before => ?_)
    exact sound (op :: pre) post r (by rw [hsplit, List.cons_append]) (.cons adm ok before)

/-- With a sound hint, `request_frame` finds a frame where one is free and the counter says so. -/
theorem requestFrame_of_free (hint : HintSound p) (hfits : p.frames ≤ 2 ^ 52)
    (hzero : p.locked 0 = true) (hsome : ∃ i < p.frames, p.locked i = false)
    (hfree : 0 < p.freeFrames) :
    ∃ i r, p.requestFrame = .ok (idxToFramePtr i, r) ∧ idxToFramePtr i ≠ 0 ∧ i < p.frames ∧
      p.locked i = false := by
  cases hfind : p.findFree with
  | none =>
    obtain ⟨i, hi, hbit⟩ := hsome
    have hlocked : p.locked i = true := by
      by_cases hlast : i < p.lastFreeIdx
      · exact hint i hlast
      · exact findFree_none hfind (by omega) hi
    rw [hlocked] at hbit
    cases hbit
  | some i =>
    obtain ⟨hbit, -, hi⟩ := findFree_some hfind
    have hpos : i ≠ 0 := by
      rintro rfl
      rw [hzero] at hbit
      cases hbit
    refine ⟨i, { p.lockFrame i with lastFreeIdx := i }, ?_, ?_, hi, hbit⟩
    · simp only [requestFrame, kassert_of hfree, hfind]
      rfl
    · rw [idxToFramePtr, u64_of_lt (by simp only [FRAME_SZ]; omega)]
      simp only [FRAME_SZ]
      omega

end PrintOS.PMem
