import Mathlib.Tactic.Common

/-!
# Doubly linked lists in a store

A store gives a record for every address. A list of nodes is laid out in it when the record at
each node's address is the one that the node and the addresses of its two neighbours make.

`chain_append` cuts a chain anywhere, so an edit in the middle is a law about the nodes it
touches; `Chain.congr` is the frame law for all the others.
-/

namespace Linked

variable {α ν η : Type} (addr : ν → α) (make : α → ν → α → η)

/-- The address of the first node, or `n` where there is none. -/
def first (n : α) : List ν → α
  | [] => n
  | b :: _ => addr b

/-- The address of the last node, or `p` where there is none. -/
def last (p : α) : List ν → α
  | [] => p
  | b :: bs => last (addr b) bs

/-- The nodes are laid out one after the other, between a predecessor `p` and a successor `n`. -/
def Chain (record : α → η) (p : α) : List ν → α → Prop
  | [], _ => True
  | b :: bs, n => record (addr b) = make p b (first addr n bs) ∧ Chain record (addr b) bs n

variable {addr make} {record record' : α → η} {p n : α} {b : ν} {xs ys : List ν}

@[simp] theorem first_cons : first addr n (b :: ys) = addr b := rfl

theorem first_append : first addr n (xs ++ ys) = first addr (first addr n ys) xs := by
  cases xs with
  | nil => rfl
  | cons _ _ => rfl

@[simp] theorem last_append_singleton : last addr p (xs ++ [b]) = addr b := by
  induction xs generalizing p with
  | nil => rfl
  | cons x xs ih => exact ih

theorem chain_cons : Chain addr make record p (b :: ys) n ↔
    record (addr b) = make p b (first addr n ys) ∧ Chain addr make record (addr b) ys n :=
  Iff.rfl

/-- A chain cut in two: each part ends where the other begins. -/
theorem chain_append : Chain addr make record p (xs ++ ys) n ↔
    Chain addr make record p xs (first addr n ys) ∧
      Chain addr make record (last addr p xs) ys n := by
  induction xs generalizing p with
  | nil =>
    constructor
    · intro h
      exact ⟨trivial, h⟩
    · intro h
      exact h.2
  | cons x xs ih =>
    rw [List.cons_append, chain_cons, chain_cons, first_append, ih, and_assoc]
    rfl

/-- A chain depends on the records of its own nodes only. -/
theorem Chain.congr (h : Chain addr make record p xs n)
    (same : ∀ b ∈ xs, record' (addr b) = record (addr b)) : Chain addr make record' p xs n := by
  induction xs generalizing p with
  | nil => trivial
  | cons x xs ih =>
    refine ⟨?_, ih h.2 fun b hb => same b (List.mem_cons_of_mem _ hb)⟩
    rw [same x List.mem_cons_self]
    exact h.1

/-- The record of a node of a chain, with the address of each neighbour. -/
theorem Chain.record_eq (h : Chain addr make record p (xs ++ b :: ys) n) :
    record (addr b) = make (last addr p xs) b (first addr n ys) :=
  (chain_cons.mp (chain_append.mp h).2).1

end Linked
