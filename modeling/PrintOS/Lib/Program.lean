import Mathlib.Tactic.Common

/-!
# Programs over a state that may stop

A program runs from a state to a result and a state, or stops for good with a reason. `wp` is what
has to hold before a program so that one condition holds of its result and its last state, and
another one of the reason it stops with.

`wp_bind`, `wp_get` and `wp_ite` take a program apart, and `wp_mono` is how a law about a part is
used. That a result, a stop or a change of the state meets its condition is so by definition.
-/

/-- A program with a state `σ` that may stop with a reason `ε`. -/
abbrev Program (σ ε α : Type) : Type := StateT σ (Except ε) α

namespace Program

variable {σ ε α β : Type}

/-- From `s`, the program ends with `Q` of its result and state, or stops with `E` of the
reason. -/
def wp (x : Program σ ε α) (E : ε → Prop) (Q : α → σ → Prop) (s : σ) : Prop :=
  match x s with
  | .ok (a, t) => Q a t
  | .error e => E e

variable {x : Program σ ε α} {f : α → Program σ ε β} {E : ε → Prop} {Q R : α → σ → Prop} {s : σ}

theorem wp_of_ok {a : α} {t : σ} (h : x s = .ok (a, t)) : wp x E Q s ↔ Q a t := by
  rw [wp, h]

theorem wp_of_error {e : ε} (h : x s = .error e) : wp x E Q s ↔ E e := by
  rw [wp, h]

@[simp]
theorem wp_get {Q : σ → σ → Prop} : wp (get : Program σ ε σ) E Q s ↔ Q s s := Iff.rfl

@[simp]
theorem wp_bind {Q : β → σ → Prop} :
    wp (x >>= f) E Q s ↔ wp x E (fun a t => wp (f a) E Q t) s := by
  have hbind : (x >>= f) s = x s >>= fun r => f r.1 r.2 := rfl
  rw [wp, wp, hbind]
  cases x s with
  | ok r => exact Iff.rfl
  | error e => exact Iff.rfl

/-- A program after another ended: the first ended, and the second from there. -/
theorem bind_eq_ok {r : β × σ} :
    (x >>= f) s = .ok r ↔ ∃ a t, x s = .ok (a, t) ∧ f a t = .ok r := by
  have hbind : (x >>= f) s = x s >>= fun r => f r.1 r.2 := rfl
  rw [hbind]
  cases hx : x s with
  | ok a => exact ⟨fun h => ⟨a.1, a.2, rfl, h⟩, fun ⟨_, _, h, hf⟩ => by cases h; exact hf⟩
  | error e =>
    constructor
    · intro h
      cases h
    · rintro ⟨_, _, h, _⟩
      cases h

/-- A branch, where each half may use the test. -/
theorem wp_ite {c : Prop} [Decidable c] {y : Program σ ε α} :
    wp (if c then x else y) E Q s ↔ (c → wp x E Q s) ∧ (¬ c → wp y E Q s) := by
  by_cases h : c
  · rw [if_pos h]
    exact ⟨fun hx => ⟨fun _ => hx, fun hn => absurd h hn⟩, fun hxy => hxy.1 h⟩
  · rw [if_neg h]
    exact ⟨fun hy => ⟨fun hc => absurd hc h, fun _ => hy⟩, fun hxy => hxy.2 h⟩

/-- Two conditions that hold after a program hold together. -/
theorem wp_and (h : wp x E Q s) (h' : wp x E R s) : wp x E (fun a t => Q a t ∧ R a t) s := by
  rw [wp] at h h' ⊢
  cases hx : x s with
  | ok r =>
    rw [hx] at h h'
    exact ⟨h, h'⟩
  | error e =>
    rw [hx] at h
    exact h

/-- A program that stops for no reason ends. -/
theorem exists_of_wp (h : wp x (fun _ => False) Q s) : ∃ a t, x s = .ok (a, t) ∧ Q a t := by
  rw [wp] at h
  cases hx : x s with
  | ok r =>
    rw [hx] at h
    exact ⟨r.1, r.2, rfl, h⟩
  | error e =>
    rw [hx] at h
    exact h.elim

/-- What holds after a program still holds after it when less is asked. -/
theorem wp_mono (h : wp x E Q s) (weaker : ∀ a t, Q a t → R a t) : wp x E R s := by
  rw [wp] at h ⊢
  cases hx : x s with
  | ok r =>
    rw [hx] at h
    exact weaker _ _ h
  | error e =>
    rw [hx] at h
    exact h

end Program
