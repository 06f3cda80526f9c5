import PrintOS.Laws.Memory.PMem

/-!
# Requests for several frames

`request_frames` looks for a run of free frames from the hint on. Its loop leaves at the first run
that is long enough (`searchRun_first`), but only when a frame comes after it: a run that reaches
the last frame is left open, whatever its length. The assertion that is to reject a run that is too
short subtracts the end from the start and wraps, so that it rejects a run of one frame and accepts
every longer one.

`requestFrames_exact_iff` and `requestFrames_lowest_iff` say what follows: when a request hands out
exactly what was asked for, and when it is granted at all.
-/

namespace PrintOS.PMem

variable {p q : PMem} {number s : Nat}

/-! ## The search -/

section Search

variable {isLocked : Nat → Bool} {low : Nat}

/-- One of the `number` frames from `t` on is locked, and lies below `i`. -/
def Broken (isLocked : Nat → Bool) (number i t : Nat) : Prop :=
  ∃ j, t ≤ j ∧ j < t + number ∧ j < i ∧ isLocked j = true

theorem Broken.mono {i i' t : Nat} (h : Broken isLocked number i t) (hi : i ≤ i') :
    Broken isLocked number i' t := by
  obtain ⟨j, hlow, hhigh, hlt, hlocked⟩ := h
  exact ⟨j, hlow, hhigh, by omega, hlocked⟩

/-- What the search has passed when it comes to index `i`: the run that is open starts at `cur`, and
is empty when none is; it starts at the low end or after a locked frame, it is not longer than what
is looked for, and no long enough run starts below it. -/
structure Passed (isLocked : Nat → Bool) (number low i first last cur : Nat) : Prop where
  closed : first = 0 → cur = i
  opened : first ≠ 0 → cur = first ∧ last + 1 = i
  within : low ≤ cur ∧ cur ≤ i ∧ i ≤ cur + number
  begins : cur = low ∨ isLocked (cur - 1) = true
  broken : ∀ t, low ≤ t → t < cur → Broken isLocked number i t

/-- How the search ends before the index `stop`: with no run, or with the first run that is long
enough or that reaches the end. -/
structure Ended (isLocked : Nat → Bool) (number low stop s e : Nat) : Prop where
  none : s = 0 → ∀ t, low ≤ t → t < stop → Broken isLocked number stop t
  begins : s ≠ 0 → s = low ∨ isLocked (s - 1) = true
  broken : s ≠ 0 → ∀ t, low ≤ t → t < s → Broken isLocked number stop t
  length : s ≠ 0 → e + 1 = s + number ∨ (e + 1 = stop ∧ stop < s + number)

section Turns

variable {i first last cur stop e : Nat}

theorem Passed.extend (h : Passed isLocked number low i first last cur) (hpos : 0 < first)
    (hshort : i - first ≠ number) : Passed isLocked number low (i + 1) first i cur := by
  have hwithin := h.within
  have hopen := h.opened hpos.ne'
  refine ⟨fun hs => absurd hs hpos.ne', fun _ => ⟨hopen.1, rfl⟩, by omega, h.begins, ?_⟩
  exact fun t hlow ht => (h.broken t hlow ht).mono (Nat.le_succ i)

/-- A locked frame closes the run, and with it every start up to here. -/
theorem Passed.close (h : Passed isLocked number low i first last cur) (hnumber : 0 < number)
    (hshort : 0 < first → i - first ≠ number) (hlocked : isLocked i = true) :
    Passed isLocked number low (i + 1) 0 last (i + 1) := by
  have hwithin := h.within
  have hlt : i < cur + number := by
    by_cases hfirst : first = 0
    · have := h.closed hfirst
      omega
    · have := h.opened hfirst
      have := hshort (Nat.pos_of_ne_zero hfirst)
      omega
  refine ⟨fun _ => rfl, fun hne => absurd rfl hne, by omega, .inr hlocked, ?_⟩
  intro t hlow ht
  by_cases hcur : t < cur
  · exact (h.broken t hlow hcur).mono (Nat.le_succ i)
  · exact ⟨i, by omega, by omega, Nat.lt_succ_self i, hlocked⟩

/-- A run starts at `i`, which is not frame 0. -/
theorem Passed.start (h : Passed isLocked number low i 0 last cur) (hnumber : 0 < number)
    (hne : i ≠ 0) : Passed isLocked number low (i + 1) i i i := by
  have hwithin := h.within
  obtain rfl := h.closed rfl
  refine ⟨fun hs => absurd hs hne, fun _ => ⟨rfl, rfl⟩, by omega, h.begins, ?_⟩
  exact fun t hlow ht => (h.broken t hlow ht).mono (Nat.le_succ cur)

/-- The search came to the end of the range. -/
theorem Passed.ended (h : Passed isLocked number low stop s e cur) :
    Ended isLocked number low stop s e := by
  have hwithin := h.within
  constructor
  · intro hs t hlow ht
    exact h.broken t hlow (by have := h.closed hs; omega)
  · intro hs
    exact (h.opened hs).1 ▸ h.begins
  · intro hs t hlow ht
    exact h.broken t hlow (by have := (h.opened hs).1; omega)
  · intro hs
    obtain ⟨hcur, hlast⟩ := h.opened hs
    omega

/-- The search left at `i`, one past a run that is long enough. -/
theorem Passed.left (h : Passed isLocked number low i s last cur) (hs : 0 < s)
    (hfull : i - s = number) (hi : i < stop) : Ended isLocked number low stop s (i - 1) := by
  have hwithin := h.within
  have hopen := h.opened hs.ne'
  refine ⟨fun hs' => absurd hs' hs.ne', fun _ => hopen.1 ▸ h.begins, fun _ => ?_, fun _ => by omega⟩
  intro t hlow ht
  exact (h.broken t hlow (hopen.1 ▸ ht)).mono (Nat.le_of_lt hi)

theorem searchRun_first (hzero : isLocked 0 = true) (hnumber : 0 < number) {turns : Nat}
    (h : searchRun isLocked number turns low 0 0 = (s, e)) :
    Ended isLocked number low (low + turns) s e := by
  have hne : ∀ {i}, isLocked i = false → i ≠ 0 := by
    rintro _ hfree rfl
    exact Bool.false_ne_true (hfree.symm.trans hzero)
  have start : Passed isLocked number low low 0 0 low :=
    ⟨fun _ => rfl, fun hne => absurd rfl hne, by omega, .inl rfl, by omega⟩
  have ends := searchRun_rule (I := fun i first last => ∃ cur, Passed isLocked number low i first last cur)
    (fun ⟨_, inv⟩ hpos hshort _ => ⟨_, inv.extend hpos hshort⟩)
    (fun ⟨_, inv⟩ hshort hlocked => ⟨_, inv.close hnumber hshort hlocked⟩)
    (fun ⟨_, inv⟩ hfree => ⟨_, inv.start hnumber (hne hfree)⟩) ⟨low, start⟩ h
  rcases ends with ⟨cur, inv⟩ | ⟨i, last, hi, ⟨cur, inv⟩, hs, hfull, rfl⟩
  · exact inv.ended
  · exact inv.left hs hfull hi

end Turns

end Search

/-! ## What a request finds -/

/-- A run of `number` free frames, at or above the hint, starts at `s`. -/
structure RunAt (p : PMem) (number s : Nat) : Prop where
  hint : p.lastFreeIdx ≤ s
  fits : s + number ≤ p.frames
  free : ∀ j, s ≤ j → j < s + number → p.locked j = false

/-- The free frames up to the last one, counted from the hint, start at `s`. -/
structure FreeTail (p : PMem) (s : Nat) : Prop where
  hint : p.lastFreeIdx ≤ s
  begins : s = p.lastFreeIdx ∨ p.locked (s - 1) = true
  free : ∀ j, s ≤ j → j < p.frames → p.locked j = false

/-- The search of a request, as `request_frames` starts it. -/
def search (p : PMem) (number : Nat) : Nat × Nat :=
  searchRun p.locked number (p.frames - p.lastFreeIdx) p.lastFreeIdx 0 0

theorem findFrames_eq_ok_iff {e : Nat} (hpos : 0 < number) :
    p.findFrames number = .ok (s, e) ↔
      p.search number = (s, e) ∧ 0 < s ∧ 0 < e ∧ number ≤ sub64 s e := by
  have hsearch : p.findFrames number = do
      kassert (number > 0) "number > 0"
      kassert ((p.search number).1 > 0) "free_start_idx > 0"
      kassert ((p.search number).2 > 0) "free_end_idx > 0"
      kassert (sub64 (p.search number).1 (p.search number).2 ≥ number)
        "free_start_idx - free_end_idx >= number"
      return p.search number := rfl
  generalize p.search number = found at hsearch
  obtain ⟨first, last⟩ := found
  rw [hsearch]
  constructor
  · intro h
    obtain ⟨_, -, h⟩ := Except.bind_eq_ok.mp h
    obtain ⟨_, hfirst, h⟩ := Except.bind_eq_ok.mp h
    obtain ⟨_, hlast, h⟩ := Except.bind_eq_ok.mp h
    obtain ⟨_, hsub, h⟩ := Except.bind_eq_ok.mp h
    obtain ⟨rfl, rfl⟩ := Prod.mk.inj (Except.ok.inj h)
    exact ⟨rfl, kassert_eq_ok.mp hfirst, kassert_eq_ok.mp hlast, kassert_eq_ok.mp hsub⟩
  · rintro ⟨heq, hfirst, hlast, hsub⟩
    obtain ⟨rfl, rfl⟩ := Prod.mk.inj heq
    rw [kassert_of hpos, kassert_of hfirst, kassert_of hlast, kassert_of hsub]
    rfl

/-- A start that is broken is no start of a run. -/
theorem RunAt.not_broken {i : Nat} (run : RunAt p number s) : ¬ Broken p.locked number i s := by
  rintro ⟨j, hlow, hhigh, -, hlocked⟩
  rw [run.free j hlow hhigh] at hlocked
  cases hlocked

/-- **What the search of a request finds**: the lowest run that is long enough, or, where there is
none, the free frames up to the last one, or nothing. -/
theorem search_cases {e : Nat} (hzero : p.locked 0 = true) (hpos : 0 < number)
    (h : p.search number = (s, e)) :
    (s ≠ 0 ∧ RunAt p number s ∧ e + 1 = s + number ∧ ∀ t, t < s → ¬ RunAt p number t) ∨
      (s ≠ 0 ∧ FreeTail p s ∧ e + 1 = p.frames ∧ s ≤ e ∧ ∀ t, ¬ RunAt p number t) ∨
      (s = 0 ∧ (∀ t, FreeTail p t → p.frames ≤ t) ∧ ∀ t, ¬ RunAt p number t) := by
  have hended : Ended p.locked _ _ _ s e := searchRun_first hzero hpos h
  by_cases hs : s = 0
  · refine .inr (.inr ⟨hs, ?_, ?_⟩)
    · intro t htail
      by_contra hlt
      obtain ⟨j, hlow, -, hj, hlocked⟩ := hended.none hs t htail.hint (by omega)
      rw [htail.free j hlow (by have := htail.hint; omega)] at hlocked
      cases hlocked
    · intro t hrun
      have hfits := hrun.fits
      exact hrun.not_broken (hended.none hs t hrun.hint (by omega))
  obtain ⟨hlow, hle, hlt, hfree⟩ := searchRun_free h hs
  rcases hended.length hs with hlong | ⟨hlast, hshort⟩
  · refine .inl ⟨hs, ⟨hlow, by omega, fun j h1 h2 => hfree j h1 (by omega)⟩, hlong, ?_⟩
    intro t ht hrun
    exact hrun.not_broken (hended.broken hs t hrun.hint ht)
  · refine .inr (.inl ⟨hs, ⟨hlow, hended.begins hs, fun j h1 h2 => hfree j h1 (by omega)⟩,
      by omega, hle, ?_⟩)
    intro t hrun
    by_cases ht : t < s
    · exact hrun.not_broken (hended.broken hs t hrun.hint ht)
    · have hfits := hrun.fits
      omega

/-- There is one start of the free frames up to the last one. -/
theorem FreeTail.unique {t : Nat} (hs : FreeTail p s) (ht : FreeTail p t) (hslt : s < p.frames)
    (htlt : t < p.frames) : s = t := by
  have key : ∀ {a b : Nat}, FreeTail p a → FreeTail p b → b < p.frames → ¬ a < b := by
    intro a b ha hb hlt hab
    rcases hb.begins with heq | hlocked
    · have := ha.hint
      omega
    · rw [ha.free (b - 1) (by omega) (by omega)] at hlocked
      cases hlocked
  exact Nat.le_antisymm (Nat.le_of_not_lt (key ht hs hslt)) (Nat.le_of_not_lt (key hs ht htlt))

/-! ## What a request hands out -/

/-- Locking different free frames counts each of them once. -/
theorem freeFrames_foldl_lockFrame {l : List Nat} (hne : l ≠ []) (hnodup : l.Nodup)
    (hfree : ∀ j ∈ l, p.locked j = false) :
    (l.foldl lockFrame p).freeFrames = sub64 p.freeFrames l.length := by
  induction l generalizing p with
  | nil => exact absurd rfl hne
  | cons i rest ih =>
    obtain ⟨hnot, hrest⟩ := List.nodup_cons.mp hnodup
    have hget : p.bitmap.get p.mem i = false := hfree i List.mem_cons_self
    have hone : (p.lockFrame i).freeFrames = sub64 p.freeFrames 1 := by
      rw [lockFrame, if_pos hget]
    rw [List.foldl_cons]
    by_cases hnil : rest = []
    · rw [hnil]
      exact hone
    · rw [ih hnil hrest ?_, hone, sub64_sub64, List.length_cons, Nat.add_comm]
      intro j hj
      have hji : j ≠ i := by
        rintro rfl
        exact hnot hj
      rw [locked_lockFrame, hfree j (List.mem_cons_of_mem _ hj)]
      simp [hji]

/-- What a completed request for `number` frames is to do: the address is that of `number` frames
that were free and are locked now, no other frame has changed, and as many were counted. -/
structure Granted (p : PMem) (number ptr : Nat) (q : PMem) (s : Nat) : Prop where
  address : ptr = idxToFramePtr s
  fits : s + number ≤ p.frames
  free : ∀ j, s ≤ j → j < s + number → p.locked j = false
  locked : ∀ j, s ≤ j → j < s + number → q.locked j = true
  others : ∀ j, j < s ∨ s + number ≤ j → q.locked j = p.locked j
  counted : q.freeFrames = sub64 p.freeFrames number

/-- A request hands out exactly what was asked for, or does not return; it does not where no run is
long enough. -/
structure Exact (p : PMem) (number : Nat) : Prop where
  granted : ∀ ptr q, p.requestFrames number = .ok (ptr, q) → ∃ s, Granted p number ptr q s
  refused : (∀ s, ¬ RunAt p number s) → ∀ r, p.requestFrames number ≠ .ok r

theorem requestFrames_eq_ok {e : Nat} (h : p.findFrames number = .ok (s, e)) :
    p.requestFrames number =
      .ok (idxToFramePtr s, (frameRange s e).foldl lockFrame p) := by
  rw [requestFrames, h]
  rfl

/-- A run of the length asked for is handed out as it should be. -/
theorem granted_of_run {e : Nat} (hpos : 0 < number) (run : RunAt p number s)
    (hlong : e + 1 = s + number) :
    Granted p number (idxToFramePtr s) ((frameRange s e).foldl lockFrame p) s := by
  have hlength : (frameRange s e).length = number := by
    rw [frameRange, List.length_range']
    omega
  have hmem : ∀ j, j ∈ frameRange s e ↔ s ≤ j ∧ j < s + number := by
    intro j
    rw [mem_frameRange]
    omega
  refine ⟨rfl, run.fits, run.free, ?_, ?_, ?_⟩
  · intro j h1 h2
    rw [locked_foldl_lockFrame, decide_eq_true ((hmem j).mpr ⟨h1, h2⟩), Bool.or_true]
  · intro j hj
    have hout : j ∉ frameRange s e := by
      rw [hmem]
      omega
    rw [locked_foldl_lockFrame, decide_eq_false hout, Bool.or_false]
  · rw [freeFrames_foldl_lockFrame, hlength]
    · exact List.ne_nil_of_length_pos (by omega)
    · exact List.nodup_range'
    · intro j hj
      obtain ⟨h1, h2⟩ := (hmem j).mp hj
      exact run.free j h1 h2

/-- A request that returns has found a run of the length asked for, or, where there is none, at
least two free frames up to the last one. -/
theorem requestFrames_cases {ptr : Nat} (hzero : p.locked 0 = true) (hfits : p.frames < 2 ^ 64)
    (hpos : 0 < number) (h : p.requestFrames number = .ok (ptr, q)) :
    (∃ s, RunAt p number s ∧ Granted p number ptr q s) ∨
      ((∀ s, ¬ RunAt p number s) ∧
        ∃ s, FreeTail p s ∧ s + 2 ≤ p.frames ∧ number + (p.frames - 1 - s) ≤ 2 ^ 64) := by
  obtain ⟨s, e, hfind, rfl, rfl⟩ := requestFrames_ok h
  obtain ⟨hsearch, hs, -, hsub⟩ := (findFrames_eq_ok_iff hpos).mp hfind
  rcases search_cases hzero hpos hsearch with
    ⟨-, hrun, hlong, -⟩ | ⟨-, htail, hlast, hle, hnone⟩ | ⟨rfl, -⟩
  · exact .inl ⟨s, hrun, granted_of_run hpos hrun hlong⟩
  · -- the assertion rules out a run of one frame, and nothing else
    have hlt : s < e := by
      rcases Nat.lt_or_eq_of_le hle with hlt | rfl
      · exact hlt
      · rw [sub64_of_le (Nat.le_refl s) (by omega)] at hsub
        omega
    rw [sub64_of_lt hlt (by omega)] at hsub
    exact .inr ⟨hnone, s, htail, by omega, by omega⟩
  · exact absurd hs (Nat.lt_irrefl 0)

/-- **When a request hands out exactly what was asked for**: when some run is long enough, or the
free frames up to the last one are fewer than two. (A request for nearly 2^64 frames is refused as
well.) -/
theorem requestFrames_exact_iff (hzero : p.locked 0 = true) (hfits : p.frames < 2 ^ 64)
    (hpos : 0 < number) :
    Exact p number ↔ (∃ s, RunAt p number s) ∨
      ∀ s, FreeTail p s → s + 2 ≤ p.frames → 2 ^ 64 < number + (p.frames - 1 - s) := by
  constructor
  · intro hexact
    by_contra hnot
    obtain ⟨hnone, hlong⟩ := not_or.mp hnot
    have hnone := not_exists.mp hnone
    push Not at hlong
    obtain ⟨t, htail, hlong, hwrap⟩ := hlong
    obtain ⟨s, e, hsearch⟩ : ∃ s e, p.search number = (s, e) := ⟨_, _, rfl⟩
    rcases search_cases hzero hpos hsearch with
      ⟨-, hrun, -⟩ | ⟨hs, hfree, hlast, hle, -⟩ | ⟨-, hempty, -⟩
    · exact hnone s hrun
    · obtain rfl := hfree.unique htail (by omega) (by omega)
      have hsub : sub64 s e = 2 ^ 64 - (e - s) := sub64_of_lt (by omega) (by omega)
      have hfind := (findFrames_eq_ok_iff hpos).mpr ⟨hsearch, by omega, by omega, by omega⟩
      exact hexact.refused hnone _ (requestFrames_eq_ok hfind)
    · have := hempty t htail
      omega
  · intro hcond
    have hno : ∀ s, (∀ s, ¬ RunAt p number s) → FreeTail p s → s + 2 ≤ p.frames →
        ¬ number + (p.frames - 1 - s) ≤ 2 ^ 64 := by
      intro s hnone htail hlong
      rcases hcond with ⟨t, hrun⟩ | hcond
      · exact absurd hrun (hnone t)
      · exact Nat.not_le.mpr (hcond s htail hlong)
    constructor
    · intro ptr q h
      rcases requestFrames_cases hzero hfits hpos h with ⟨s, -, hgranted⟩ |
        ⟨hnone, s, htail, hlong, hwrap⟩
      · exact ⟨s, hgranted⟩
      · exact absurd hwrap (hno s hnone htail hlong)
    · intro hnone r h
      rcases requestFrames_cases hzero hfits hpos h with ⟨s, hrun, -⟩ |
        ⟨-, s, htail, hlong, hwrap⟩
      · exact hnone s hrun
      · exact hno s hnone htail hlong hwrap

/-- The small machine with its last frame freed: frames 1 to 5 are free, of 6. -/
def smallOpen : PMem := small.freeFrame 5

theorem smallOpen_run {number : Nat} (h : number ≤ 5) : RunAt smallOpen number 1 := by
  have hfree : ∀ j < 6, 1 ≤ j → smallOpen.locked j = false := by decide +kernel
  have hframes : smallOpen.frames = 6 := by decide +kernel
  refine ⟨by decide +kernel, by omega, ?_⟩
  intro j h1 h2
  exact hfree j (by omega) h1

theorem smallOpen_no_run (s : Nat) : ¬ RunAt smallOpen 6 s := by
  intro run
  have hframes : smallOpen.frames = 6 := by decide +kernel
  have hlocked : smallOpen.locked 0 = true := by decide +kernel
  have hfits := run.fits
  have hfree := run.free 0 (by omega) (by omega)
  rw [hlocked] at hfree
  cases hfree

theorem smallOpen_exact : smallOpen.locked 0 = true ∧ Exact smallOpen 5 := by
  have hzero : smallOpen.locked 0 = true := by decide +kernel
  exact ⟨hzero, (requestFrames_exact_iff hzero (by decide +kernel) (by decide)).mpr
    (.inl ⟨1, smallOpen_run (Nat.le_refl 5)⟩)⟩

set_option maxRecDepth 20000 in
/-- Six frames asked for, five handed out: the run up to the last frame is taken, and the wrapped
difference passes the assertion. -/
theorem smallOpen_not_exact :
    smallOpen.locked 0 = true ∧
      (∃ q, smallOpen.requestFrames 6 = .ok (0x1000, q) ∧ smallOpen.freeFrames = 5 ∧
        q.freeFrames = 0) ∧ ¬ Exact smallOpen 6 := by
  obtain ⟨q, hrequest, hcount⟩ : ∃ q, smallOpen.requestFrames 6 = .ok (0x1000, q) ∧
      q.freeFrames = 0 := ⟨_, rfl, by decide +kernel⟩
  refine ⟨by decide +kernel, ⟨q, hrequest, by decide +kernel, hcount⟩, ?_⟩
  intro hexact
  exact hexact.refused smallOpen_no_run _ hrequest

/-- **When a request is granted**: if there is a run of the length asked for, the lowest one is
handed out exactly when at least two frames are asked for, and at most 2^63. -/
theorem requestFrames_lowest_iff (hzero : p.locked 0 = true) (hfits : p.frames < 2 ^ 64)
    (hpos : 1 ≤ number) (run : RunAt p number s) (lowest : ∀ t, t < s → ¬ RunAt p number t) :
    (∃ q, p.requestFrames number = .ok (idxToFramePtr s, q)) ↔ 2 ≤ number ∧ number ≤ 2 ^ 63 := by
  have hrun := run.fits
  obtain ⟨s', e, hsearch⟩ : ∃ s e, p.search number = (s, e) := ⟨_, _, rfl⟩
  rcases search_cases hzero hpos hsearch with
    ⟨hne, hrun', hlong, hlow⟩ | ⟨-, -, -, -, hnone⟩ | ⟨-, -, hnone⟩
  · obtain rfl : s' = s := by
      rcases Nat.lt_trichotomy s' s with hlt | heq | hlt
      · exact absurd hrun' (lowest s' hlt)
      · exact heq
      · exact absurd run (hlow s hlt)
    constructor
    · rintro ⟨q, h⟩
      obtain ⟨first, last, hfind, -⟩ := requestFrames_ok h
      obtain ⟨hsearch', -, -, hsub⟩ := (findFrames_eq_ok_iff hpos).mp hfind
      obtain ⟨rfl, rfl⟩ := Prod.mk.inj (hsearch'.symm.trans hsearch)
      by_cases hone : number = 1
      · obtain rfl : last = first := by omega
        rw [sub64_of_le (Nat.le_refl last) (by omega)] at hsub
        omega
      · rw [sub64_of_lt (by omega) (by omega)] at hsub
        omega
    · rintro ⟨htwo, hhalf⟩
      have hsub : sub64 s' e = 2 ^ 64 - (e - s') := sub64_of_lt (by omega) (by omega)
      have hfind := (findFrames_eq_ok_iff hpos).mpr ⟨hsearch, by omega, by omega, by omega⟩
      exact ⟨_, requestFrames_eq_ok hfind⟩
  · exact absurd run (hnone s)
  · exact absurd run (hnone s)

theorem smallOpen_granted : RunAt smallOpen 2 1 ∧
    ∃ q, smallOpen.requestFrames 2 = .ok (idxToFramePtr 1, q) := by
  have hrun : RunAt smallOpen 2 1 := smallOpen_run (by decide)
  have hzero : smallOpen.locked 0 = true := by decide +kernel
  have hlow : ∀ t, t < 1 → ¬ RunAt smallOpen 2 t := by
    intro t ht run
    obtain rfl : t = 0 := by omega
    rw [run.free 0 (Nat.le_refl 0) (by decide)] at hzero
    cases hzero
  exact ⟨hrun, (requestFrames_lowest_iff hzero (by decide +kernel) (by decide) hrun hlow).mpr
    (by decide)⟩

set_option maxRecDepth 20000 in
/-- One frame asked for while five are free: the assertion stops the kernel. -/
theorem smallOpen_one_refused : smallOpen.locked 0 = true ∧ RunAt smallOpen 1 1 ∧
    smallOpen.requestFrames 1 =
      .error (.assertion "free_start_idx - free_end_idx >= number") :=
  ⟨by decide +kernel, smallOpen_run (by decide), rfl⟩

end PrintOS.PMem
