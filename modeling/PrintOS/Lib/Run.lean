import Mathlib.Data.List.Induction
import Mathlib.Tactic.Common

/-!
# Runs of a fallible step function

A component is a step function `σ → ι → Except ε σ`. A run is a sequence of completed steps,
each one admitted by a side condition `Adm` on the state before it and on its label. The
condition is where a component says which calls its clients may make, and where a law about
some runs only says which ones.

`Run.invariant` is the induction every safety law goes through; `Run.append_inv` cuts a run
at any point, so a law about two steps of one run needs no log. Where every step completes, the
state is a function of the labels so far, and `history_iff` is the rule for laws that hold after
every label exactly when each label meets a condition. `read_foldl` is the rule for a state of
places that each label sets one of: what is read at a place is what the last label there set.
-/

/-- A property of the labels so far holds all along a list exactly when each label, after those
before it, meets the condition under which one label more keeps it. -/
theorem history_iff {ι : Type} {P : List ι → Prop} {C : List ι → ι → Prop} (nil : P [])
    (step : ∀ pre i, P pre → (P (pre ++ [i]) ↔ C pre i)) (is : List ι) :
    (∀ pre post, is = pre ++ post → P pre) ↔
      ∀ pre i post, is = pre ++ i :: post → C pre i := by
  constructor
  · intro all pre i post h
    have next := all (pre ++ [i]) post (h.trans (List.append_cons pre i post))
    exact (step pre i (all pre (i :: post) h)).mp next
  · intro all pre
    induction pre using List.reverseRecOn with
    | nil => exact fun _ _ => nil
    | append_singleton pre i ih =>
      intro post h
      have h' : is = pre ++ i :: post := h.trans (List.append_cons pre i post).symm
      exact (step pre i (ih (i :: post) h')).mpr (all pre i post h')

/-- Where every label sets one place and leaves the others, a place has what the last label at it
set, and where there is none what it had at first. -/
theorem read_foldl {σ ι κ β : Type} [DecidableEq κ] {step : σ → ι → σ} (read : σ → κ → β)
    {place : ι → κ} {value : ι → β}
    (law : ∀ s i k, read (step s i) k = if place i = k then value i else read s k)
    (is : List ι) (s : σ) (k : κ) : read (is.foldl step s) k =
      ((is.filter fun i => place i = k).getLast?.map value).getD (read s k) := by
  induction is using List.reverseRecOn with
  | nil => rfl
  | append_singleton is i ih =>
    rw [List.foldl_append, List.filter_append, List.foldl_cons, List.foldl_nil, law]
    by_cases h : place i = k
    · have hlast : ([i].filter fun i => place i = k) = [i] := by simp [h]
      rw [if_pos h, hlast, List.getLast?_concat]
      rfl
    · have hnone : ([i].filter fun i => place i = k) = [] := by simp [h]
      rw [if_neg h, hnone, List.append_nil]
      exact ih

/-- A bind that answered: its first half answered, and the rest answered from there. -/
theorem Except.bind_eq_ok {ε α β : Type} {x : Except ε α} {f : α → Except ε β} {b : β} :
    (x >>= f) = .ok b ↔ ∃ a, x = .ok a ∧ f a = .ok b := by
  cases x with
  | error e =>
    constructor
    · intro h
      cases h
    · rintro ⟨_, h, _⟩
      cases h
  | ok a =>
    constructor
    · intro h
      exact ⟨a, rfl, h⟩
    · rintro ⟨_, h, hf⟩
      cases h
      exact hf

/-- A bind after an answer goes on with it. -/
theorem Except.ok_bind {ε α β : Type} (a : α) (f : α → Except ε β) :
    ((.ok a : Except ε α) >>= f) = f a :=
  rfl

/-- Binds with one first half agree if they agree on its answer. -/
theorem Except.bind_congr_ok {ε α β : Type} {x : Except ε α} {f g : α → Except ε β}
    (h : ∀ a, x = .ok a → f a = g a) : x >>= f = x >>= g := by
  cases x with
  | error e => rfl
  | ok a => exact h a rfl

/-- An answer evaluated. -/
theorem Except.eq_ok_of_toOption {ε α : Type} {x : Except ε α} {a : α}
    (h : x.toOption = some a) : x = .ok a := by
  cases x with
  | error e => cases h
  | ok b => exact congrArg Except.ok (Option.some.inj h)

/-- An answer evaluated as far as `f` sees it. -/
theorem Except.ok_of_toOption_map {ε α β : Type} {x : Except ε α} {f : α → β} {v : β}
    (h : x.toOption.map f = some v) : ∃ a, x = .ok a ∧ f a = v := by
  obtain ⟨a, hx, hf⟩ := Option.map_eq_some_iff.mp h
  exact ⟨a, eq_ok_of_toOption hx, hf⟩

/-- A run of completed steps, each admitted by `Adm`. -/
inductive Run {σ ι ε : Type} (step : σ → ι → Except ε σ) (Adm : σ → ι → Prop) :
    σ → List ι → σ → Prop
  | nil (s : σ) : Run step Adm s [] s
  | cons {s t u : σ} {i : ι} {is : List ι} :
    Adm s i → step s i = .ok t → Run step Adm t is u → Run step Adm s (i :: is) u

namespace Run

variable {σ ι ε : Type} {step : σ → ι → Except ε σ} {Adm : σ → ι → Prop}
variable {s t u : σ} {i : ι} {is js : List ι}

/-- What one admitted step preserves, a run preserves. -/
theorem invariant {P : σ → Prop}
    (preserved : ∀ s i t, P s → Adm s i → step s i = .ok t → P t)
    (run : Run step Adm s is t) (start : P s) : P t := by
  induction run with
  | nil s => exact start
  | cons adm ok _ ih => exact ih (preserved _ _ _ start adm ok)

/-- What a step gives back at its start, the end of a run gives back at its start. -/
theorem back {G : σ → Prop} (back : ∀ s i t, step s i = .ok t → G t → G s)
    (run : Run step Adm s is t) (good : G t) : G s := by
  induction run with
  | nil s => exact good
  | cons _ ok _ ih => exact back _ _ _ ok (ih good)

/-- An invariant of the runs that end well, where `G` says so of the end and is inherited from
the end of a step by its start. -/
theorem invariant_within {P G : σ → Prop} (back : ∀ s i t, step s i = .ok t → G t → G s)
    (preserved : ∀ s i t, P s → Adm s i → step s i = .ok t → G t → P t)
    (run : Run step Adm s is t) (good : G t) (start : P s) : P t := by
  induction run with
  | nil s => exact start
  | cons adm ok rest ih => exact ih good (preserved _ _ _ start adm ok (rest.back back good))

theorem append (first : Run step Adm s is t) (second : Run step Adm t js u) :
    Run step Adm s (is ++ js) u := by
  induction first with
  | nil s => exact second
  | cons adm ok _ ih => exact .cons adm ok (ih second)

/-- One more step at the end. -/
theorem snoc (run : Run step Adm s is t) (adm : Adm t i) (ok : step t i = .ok u) :
    Run step Adm s (is ++ [i]) u :=
  run.append (.cons adm ok (.nil u))

/-- A run cut in two. -/
theorem append_inv (run : Run step Adm s (is ++ js) u) :
    ∃ t, Run step Adm s is t ∧ Run step Adm t js u := by
  induction is generalizing s with
  | nil => exact ⟨s, .nil s, run⟩
  | cons i is ih =>
    cases run with
    | cons adm ok rest =>
      obtain ⟨t, first, second⟩ := ih rest
      exact ⟨t, .cons adm ok first, second⟩

/-- A property that a run loses is lost in one step. -/
theorem exists_loss {P : σ → Prop} (run : Run step Adm s is t) (start : P s) (lost : ¬ P t) :
    ∃ pre i post u v, is = pre ++ i :: post ∧ Run step Adm s pre u ∧ step u i = .ok v ∧
      Run step Adm v post t ∧ P u ∧ ¬ P v := by
  induction run with
  | nil s => exact absurd start lost
  | @cons s s' t i is adm ok rest ih =>
    by_cases next : P s'
    · obtain ⟨pre, j, post, u, v, rfl, first, hstep, last, hu, hv⟩ := ih next lost
      exact ⟨i :: pre, j, post, u, v, rfl, .cons adm ok first, hstep, last, hu, hv⟩
    · exact ⟨[], i, is, s, s', rfl, .nil s, ok, rest, start, next⟩

/-- A run admitted by one condition is admitted by what that implies for its labels. -/
theorem mono_mem {Adm' : σ → ι → Prop} (weaker : ∀ s, ∀ i ∈ is, Adm s i → Adm' s i)
    (run : Run step Adm s is t) : Run step Adm' s is t := by
  induction run with
  | nil s => exact .nil s
  | cons adm ok _ ih =>
    exact .cons (weaker _ _ List.mem_cons_self adm) ok
      (ih fun s i hi => weaker s i (List.mem_cons_of_mem _ hi))

/-- A run admitted by a stronger condition is admitted by a weaker one. -/
theorem mono {Adm' : σ → ι → Prop} (weaker : ∀ s i, Adm s i → Adm' s i)
    (run : Run step Adm s is t) : Run step Adm' s is t :=
  run.mono_mem fun s i _ => weaker s i

/-- What the condition says of a label alone holds of every label of the run. -/
theorem forall_of_adm {P : ι → Prop} (holds : ∀ s i, Adm s i → P i)
    (run : Run step Adm s is t) : ∀ i ∈ is, P i := by
  induction run with
  | nil s =>
    intro i h
    cases h
  | cons adm _ _ ih =>
    intro i h
    rcases List.mem_cons.mp h with rfl | h
    · exact holds _ _ adm
    · exact ih i h

/-- Steps are functions, so two runs of the same labels end together. -/
theorem unique {Adm' : σ → ι → Prop} (first : Run step Adm s is t)
    (second : Run step Adm' s is u) : t = u := by
  induction first with
  | nil s => cases second; rfl
  | cons _ ok _ ih =>
    cases second with
    | cons _ ok' rest =>
      rw [ok] at ok'
      cases ok'
      exact ih rest

/-- The state that some labels lead to, if each one is admitted and its step completes. -/
def exec (step : σ → ι → Except ε σ) (Adm : σ → ι → Prop) [∀ s i, Decidable (Adm s i)] :
    σ → List ι → Option σ
  | s, [] => some s
  | s, i :: is =>
    if Adm s i then
      match step s i with
      | .ok t => exec step Adm t is
      | .error _ => none
    else none

/-- What `exec` reaches, a run reaches. -/
theorem of_exec [∀ s i, Decidable (Adm s i)] : ∀ {is : List ι} {s : σ},
    exec step Adm s is = some t → Run step Adm s is t := by
  intro is
  induction is with
  | nil =>
    intro s h
    obtain rfl := Option.some.inj h
    exact .nil s
  | cons i is ih =>
    intro s h
    rw [exec] at h
    split at h
    next adm =>
      cases hok : step s i with
      | error e =>
        rw [hok] at h
        cases h
      | ok u =>
        rw [hok] at h
        exact .cons adm hok (ih h)
    next => cases h

/-- A run evaluated as far as `f` sees its end. -/
theorem of_exec_map [∀ s i, Decidable (Adm s i)] {β : Type} {f : σ → β} {v : β}
    (h : (exec step Adm s is).map f = some v) : ∃ t, Run step Adm s is t ∧ f t = v := by
  obtain ⟨t, ht, hf⟩ := Option.map_eq_some_iff.mp h
  exact ⟨t, of_exec ht, hf⟩

end Run
