import PrintOS.Lib.Run

/-!
# Assertions and the ways kernel code stops

`ASSERT(expr)` hands the text of `expr` to `kpanic` and never returns. Kernel code also stops
for good where it follows a null pointer, goes round a loop for ever, or uses an address that is not
mapped once paging is on. A modelled function answers in `Except Fault`; an operation completes when
it answers `ok`.
-/

namespace PrintOS

/-- Why a call does not return. -/
inductive Fault where
  /-- `ASSERT(expr)` failed; the panic message is the text of `expr`. -/
  | assertion (expr : String)
  /-- A null pointer was dereferenced. -/
  | nullDeref
  /-- A loop goes on for ever. -/
  | noReturn
  /-- An address was used that no page is mapped at. -/
  | pageFault
  deriving Repr, DecidableEq

/-- The `ASSERT` macro, with the expression's text. -/
def kassert (cond : Prop) [Decidable cond] (expr : String) : Except Fault Unit :=
  if cond then .ok () else .error (.assertion expr)

theorem kassert_eq_ok {cond : Prop} [Decidable cond] {expr : String} {u : Unit} :
    kassert cond expr = .ok u ↔ cond := by
  by_cases h : cond <;> simp [kassert, h]

theorem kassert_of {cond : Prop} [Decidable cond] {expr : String} (h : cond) :
    kassert cond expr = .ok () :=
  if_pos h

end PrintOS
