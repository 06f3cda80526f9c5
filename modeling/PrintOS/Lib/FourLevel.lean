import PrintOS.Lib.ByteMemory

/-!
# Address translation by the processor

With four-level paging the processor takes a linear address of 48 bits through four tables of 512
entries of eight bytes: nine bits of the address at a time choose an entry, and the entry holds the
address of the next table. Bit 0 of an entry is `present`, bits 12 to 51 are the frame. An entry of
the two middle levels with bit 7 set maps a large page and ends the walk.

`walk` counts the levels that are left, so that the tables of any level are one definition.
-/

namespace FourLevel

open ByteMemory (Mem)

/-- Bit 0 of an entry. -/
def present (e : Nat) : Bool := e % 2 == 1

/-- Bit 7 of an entry, which is a page size in the two middle levels. -/
def large (e : Nat) : Bool := e / 2 ^ 7 % 2 == 1

/-- Bits 12 to 51 of an entry, as an address. -/
def frame (e : Nat) : Nat := e / 2 ^ 12 % 2 ^ 40 * 2 ^ 12

/-- Nine bits of an address: the index in a table with `k` levels below it. -/
def index (k v : Nat) : Nat := v / 2 ^ (12 + 9 * k) % 2 ^ 9

/-- The walk through the levels that are left, from a table on. With none left the table is the
page. -/
def walk (m : Mem) : Nat → Nat → Nat → Option Nat
  | 0, page, v => some (page + v % 2 ^ 12)
  | k + 1, table, v =>
    let e := m.read64 (table + 8 * index k v)
    if present e = false then none
    else if (k = 1 ∨ k = 2) ∧ large e = true then
      some (frame e / 2 ^ (12 + 9 * k) * 2 ^ (12 + 9 * k) + v % 2 ^ (12 + 9 * k))
    else walk m k (frame e) v

/-- The physical address of a linear one, for the first table of `cr3`; none is a page fault. -/
def translate (m : Mem) (cr3 v : Nat) : Option Nat := walk m 4 cr3 v

variable {m : Mem} {k table v e : Nat}

/-- An entry that is not present ends the walk. -/
theorem walk_absent (he : m.read64 (table + 8 * index k v) = e) (h : present e = false) :
    walk m (k + 1) table v = none := by
  subst he
  rw [walk]
  simp only [h, if_true]

/-- An entry that is present, and no large page, leads to the table that it points at. -/
theorem walk_present (he : m.read64 (table + 8 * index k v) = e) (h : present e = true)
    (small : large e = false) : walk m (k + 1) table v = walk m k (frame e) v := by
  subst he
  rw [walk]
  simp only [h, small, Bool.true_eq_false, Bool.false_eq_true, and_false, if_false]

end FourLevel
