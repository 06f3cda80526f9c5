import Mathlib.Order.Basic
import Mathlib.Tactic.Common
import Mathlib.Tactic.Order

/-!
# Lists of intervals

Anything with a lower and an upper end, the lower one included and the upper one not. Two
intervals are apart when one ends before the other begins; a point is covered by a list when it
lies in one of its intervals.

Cutting an interval in two, and joining two that meet, keep a list apart or in order and cover
the same points. Each is one equivalence, read in either direction: `pairwise_apart_cut`,
`pairwise_before_cut` and `covered_cut`.
-/

namespace Interval

variable {α ι : Type} [LinearOrder α] (lo hi : ι → α)

/-- The point lies in the interval. -/
def Has (i : ι) (x : α) : Prop := lo i ≤ x ∧ x < hi i

/-- The point lies in an interval of the list. -/
def Covered (l : List ι) (x : α) : Prop := ∃ i ∈ l, Has lo hi i x

/-- One interval ends before the other begins. -/
def Before (i j : ι) : Prop := hi i ≤ lo j

/-- Of two intervals one ends before the other begins. -/
def Apart (i j : ι) : Prop := Before lo hi i j ∨ Before lo hi j i

variable {lo hi} {i j k : ι} {xs ys : List ι} {x : α}

theorem apart_comm : Apart lo hi i j ↔ Apart lo hi j i := or_comm

instance : Std.Symm (Apart lo hi) := ⟨fun _ _ => apart_comm.mp⟩

/-- Intervals that share no point are apart. -/
theorem apart_of_disjoint (hi_proper : lo i < hi i) (hj_proper : lo j < hi j)
    (disjoint : ∀ x, Has lo hi i x → ¬ Has lo hi j x) : Apart lo hi i j := by
  by_contra hmeet
  obtain ⟨hij, hji⟩ := not_or.mp hmeet
  -- the later of the two lower ends is in both
  rcases le_total (lo i) (lo j) with h | h
  · exact disjoint (lo j) ⟨h, not_le.mp hij⟩ ⟨le_refl _, hj_proper⟩
  · exact disjoint (lo i) ⟨le_refl _, hi_proper⟩ ⟨h, not_le.mp hji⟩

theorem Apart.disjoint (h : Apart lo hi i j) (hi' : Has lo hi i x) : ¬ Has lo hi j x := by
  intro hj
  rcases h with h | h
  · exact absurd hj.1 (not_le.mpr (lt_of_lt_of_le hi'.2 h))
  · exact absurd hi'.1 (not_le.mpr (lt_of_lt_of_le hj.2 h))

theorem covered_append : Covered lo hi (xs ++ ys) x ↔ Covered lo hi xs x ∨ Covered lo hi ys x := by
  simp only [Covered, List.mem_append, or_and_right, exists_or]

theorem covered_cons : Covered lo hi (i :: ys) x ↔ Has lo hi i x ∨ Covered lo hi ys x := by
  simp only [Covered, List.mem_cons, or_and_right, exists_or, exists_eq_left]

theorem covered_singleton : Covered lo hi [i] x ↔ Has lo hi i x := by
  simp only [Covered, List.mem_singleton, exists_eq_left]

/-- `i` cut where `j` ends and `k` begins. -/
structure Cut (lo hi : ι → α) (i j k : ι) : Prop where
  lower : lo j = lo i
  seam : hi j = lo k
  upper : hi k = hi i

theorem Cut.has (cut : Cut lo hi i j k) (hj : lo j < hi j) (hk : lo k < hi k) :
    Has lo hi i x ↔ Has lo hi j x ∨ Has lo hi k x := by
  obtain ⟨hlower, hseam, hupper⟩ := cut
  simp only [Has]
  constructor
  · rintro ⟨h₁, h₂⟩
    rcases lt_or_ge x (lo k) with h | h
    · exact .inl ⟨by order, by order⟩
    · exact .inr ⟨h, by order⟩
  · rintro (⟨h₁, h₂⟩ | ⟨h₁, h₂⟩)
    · exact ⟨by order, by order⟩
    · exact ⟨by order, by order⟩

/-- An interval ends before another exactly when both parts of it do. -/
theorem Cut.before (cut : Cut lo hi i j k) (hk : lo k < hi k) {z : ι} :
    Before lo hi i z ↔ Before lo hi j z ∧ Before lo hi k z := by
  obtain ⟨hlower, hseam, hupper⟩ := cut
  simp only [Before]
  constructor
  · intro h
    exact ⟨by order, by order⟩
  · intro h
    exact hupper ▸ h.2

/-- An interval begins after another exactly when both parts of it do. -/
theorem Cut.after (cut : Cut lo hi i j k) (hj : lo j < hi j) {z : ι} :
    Before lo hi z i ↔ Before lo hi z j ∧ Before lo hi z k := by
  obtain ⟨hlower, hseam, hupper⟩ := cut
  simp only [Before]
  constructor
  · intro h
    exact ⟨by order, by order⟩
  · intro h
    exact hlower ▸ h.1

/-- An interval is apart from another exactly when both parts of it are. -/
theorem Cut.apart (cut : Cut lo hi i j k) (hj : lo j < hi j) (hk : lo k < hi k) {z : ι}
    (hz : lo z < hi z) : Apart lo hi i z ↔ Apart lo hi j z ∧ Apart lo hi k z := by
  rw [Apart, cut.before hk, cut.after hj]
  constructor
  · rintro (h | h)
    · exact ⟨.inl h.1, .inl h.2⟩
    · exact ⟨.inr h.1, .inr h.2⟩
  · rintro ⟨hjz | hzj, hkz | hzk⟩
    · exact .inl ⟨hjz, hkz⟩
    · -- the other interval would lie between the two parts, which meet
      have hseam := cut.seam
      simp only [Before] at hjz hzk
      exact absurd hz (by order)
    · have hseam := cut.seam
      simp only [Before] at hzj hkz
      exact absurd hz (by order)
    · exact .inr ⟨hzj, hzk⟩

/-- One member of a list replaced by two, for a relation that cannot tell them apart. -/
theorem pairwise_replace {R : ι → ι → Prop} (left : ∀ z ∈ xs, R z i ↔ R z j ∧ R z k)
    (right : ∀ z ∈ ys, R i z ↔ R j z ∧ R k z) (between : R j k) :
    (xs ++ i :: ys).Pairwise R ↔ (xs ++ j :: k :: ys).Pairwise R := by
  simp only [List.pairwise_append, List.pairwise_cons, List.forall_mem_cons]
  constructor
  · rintro ⟨hxs, ⟨hi_ys, hys⟩, hxs_ys⟩
    refine ⟨hxs, ⟨⟨between, fun z hz => ((right z hz).mp (hi_ys z hz)).1⟩,
      fun z hz => ((right z hz).mp (hi_ys z hz)).2, hys⟩, fun z hz => ?_⟩
    have hboth := (left z hz).mp (hxs_ys z hz).1
    exact ⟨hboth.1, hboth.2, (hxs_ys z hz).2⟩
  · rintro ⟨hxs, ⟨⟨-, hj_ys⟩, hk_ys, hys⟩, hxs_ys⟩
    refine ⟨hxs, ⟨fun z hz => (right z hz).mpr ⟨hj_ys z hz, hk_ys z hz⟩, hys⟩, fun z hz => ?_⟩
    obtain ⟨hzj, hzk, hz_ys⟩ := hxs_ys z hz
    exact ⟨(left z hz).mpr ⟨hzj, hzk⟩, hz_ys⟩

section Cut

variable (cut : Cut lo hi i j k) (proper : ∀ z, lo z < hi z)
include cut proper

/-- A cut keeps a list of non-empty intervals apart, and so does the join. -/
theorem pairwise_apart_cut :
    (xs ++ i :: ys).Pairwise (Apart lo hi) ↔ (xs ++ j :: k :: ys).Pairwise (Apart lo hi) := by
  have hparts := fun z => cut.apart (proper j) (proper k) (proper z)
  refine pairwise_replace (fun z _ => ?_) (fun z _ => hparts z) (.inl (le_of_eq cut.seam))
  rw [apart_comm, hparts z, apart_comm, @apart_comm _ _ _ lo hi k z]

/-- A cut keeps a list of non-empty intervals in order, and so does the join. -/
theorem pairwise_before_cut :
    (xs ++ i :: ys).Pairwise (Before lo hi) ↔ (xs ++ j :: k :: ys).Pairwise (Before lo hi) :=
  pairwise_replace (fun _ _ => cut.after (proper j)) (fun _ _ => cut.before (proper k))
    (le_of_eq cut.seam)

/-- A cut covers the same points. -/
theorem covered_cut :
    Covered lo hi (xs ++ i :: ys) x ↔ Covered lo hi (xs ++ j :: k :: ys) x := by
  rw [covered_append, covered_append, covered_cons, covered_cons, covered_cons,
    cut.has (proper j) (proper k), or_assoc]

end Cut

/-- In a list in order, an interval that begins where another ends is the next one. -/
theorem consecutive_of_meet {l : List ι} (ordered : l.Pairwise (Before lo hi))
    (proper : ∀ z, lo z < hi z) (hi_mem : i ∈ l) (hj_mem : j ∈ l) (meet : hi i = lo j) :
    ∃ xs ys, l = xs ++ i :: j :: ys := by
  have hi_proper := proper i
  have hj_proper := proper j
  obtain ⟨xs, rest, rfl⟩ := List.append_of_mem hi_mem
  obtain ⟨-, hrest, hxs⟩ := List.pairwise_append.mp ordered
  obtain ⟨hi_rest, hrest⟩ := List.pairwise_cons.mp hrest
  rcases List.mem_append.mp hj_mem with hj | hj
  · have hbefore : hi j ≤ lo i := hxs j hj i List.mem_cons_self
    exact absurd hi_proper (by order)
  rcases List.mem_cons.mp hj with rfl | hj
  · exact absurd hi_proper (by order)
  cases rest with
  | nil => cases hj
  | cons c rest =>
    rcases List.mem_cons.mp hj with rfl | hj
    · exact ⟨xs, rest, rfl⟩
    · -- `c` would lie between the two, where there is no room
      have hc_proper := proper c
      have hic : hi i ≤ lo c := hi_rest c List.mem_cons_self
      have hcj : hi c ≤ lo j := (List.pairwise_cons.mp hrest).1 j hj
      exact absurd hc_proper (by order)

end Interval
