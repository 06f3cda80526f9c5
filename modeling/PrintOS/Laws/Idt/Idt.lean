import PrintOS.Idt.Idt

/-!
# What the interrupt table holds

`add_int` sets the fields of an entry that it assigns and keeps all others (`entry_addInt_self`,
`entry_addInt_of_ne`). So after the constructor the table is as it should be exactly when the memory
had the right bits before where nothing is assigned (`table_wellFormed_iff`).
-/

namespace PrintOS.Idt

open ByteMemory (Mem Byte)

variable {m m' : Mem} {idt a x v : Nat} {gate : Gate} {index : Interrupt} {handler : BitVec 64}

/-! ## One entry -/

/-- An entry after `add_int`. -/
def Entry.assigned (old : Entry) (gate : Gate) (handler : BitVec 64) : Entry :=
  { old with
    present := 1
    gateType := gate.code
    segmentSelector := KERNEL_CODE
    offset1 := handler.toNat % 2 ^ 16
    offset2 := handler.toNat / 2 ^ 16 % 2 ^ 16
    offset3 := handler.toNat / 2 ^ 32 % 2 ^ 32 }

theorem Entry.ofMem_congr (same : ∀ i < ENTRY_SZ, m' (a + i) = m (a + i)) :
    Entry.ofMem m' a = Entry.ofMem m a := by
  have word : ∀ k n, k + n ≤ ENTRY_SZ → m'.readLE (a + k) n = m.readLE (a + k) n := by
    intro k n hk
    refine Mem.readLE_eq_of_bytes fun i hi => ?_
    rw [Nat.add_assoc]
    exact same (k + i) (by omega)
  have head : m'.readLE a 2 = m.readLE a 2 := word 0 2 (by decide)
  simp only [Entry.ofMem, head, word 2 2 (by decide), word 6 2 (by decide), word 8 4 (by decide),
    word 12 4 (by decide), same 4 (by decide), same 5 (by decide)]

theorem setBits_self (lo w b : Nat) (hw : lo + w ≤ 8) :
    (setBits m a lo w b a).toNat = BitField.set lo w b (m a).toNat := by
  rw [setBits, Mem.write_self, BitVec.toNat_ofNat]
  exact Nat.mod_eq_of_lt (BitField.set_lt (m a).isLt hw)

theorem setBits_of_ne {lo w b : Nat} (h : x ≠ a) : setBits m a lo w b x = m x := Mem.write_of_ne h

/-- The bytes that `add_int` leaves: those of other entries, and two words of its own. -/
theorem addInt_of_outside (h : x < entryAddr idt index.code ∨ x = entryAddr idt index.code + 4 ∨
    entryAddr idt index.code + 12 ≤ x) : addInt m idt gate index handler x = m x := by
  simp only [addInt]
  rw [Mem.writeLE_of_outside _ _ _ (by omega), Mem.writeLE_of_outside _ _ _ (by omega),
    Mem.writeLE_of_outside _ _ _ (by omega), Mem.writeLE_of_outside _ _ _ (by omega),
    setBits_of_ne (by omega), setBits_of_ne (by omega)]

theorem entry_addInt_of_ne (h : v ≠ index.code) :
    Entry.ofMem (addInt m idt gate index handler) (entryAddr idt v) =
      Entry.ofMem m (entryAddr idt v) := by
  refine Entry.ofMem_congr fun i hi => addInt_of_outside ?_
  simp only [entryAddr, ENTRY_SZ] at hi ⊢
  omega

/-- The byte with the type and the present bit. -/
theorem addInt_flags : (addInt m idt gate index handler (entryAddr idt index.code + 5)).toNat =
    BitField.set 0 4 gate.code (BitField.set 7 1 1 (m (entryAddr idt index.code + 5)).toNat) := by
  simp only [addInt]
  rw [Mem.writeLE_of_outside _ _ _ (by omega), Mem.writeLE_of_outside _ _ _ (by omega),
    Mem.writeLE_of_outside _ _ _ (by omega), Mem.writeLE_of_outside _ _ _ (by omega),
    setBits_self 0 4 _ (by decide), setBits_self 7 1 _ (by decide)]

/-- The four words that `add_int` writes. -/
theorem addInt_words : (addInt m idt gate index handler).readLE (entryAddr idt index.code + 2) 2 =
      KERNEL_CODE ∧
    (addInt m idt gate index handler).readLE (entryAddr idt index.code) 2 =
      handler.toNat % 2 ^ 16 ∧
    (addInt m idt gate index handler).readLE (entryAddr idt index.code + 6) 2 =
      handler.toNat / 2 ^ 16 % 2 ^ 16 ∧
    (addInt m idt gate index handler).readLE (entryAddr idt index.code + 8) 4 =
      handler.toNat / 2 ^ 32 % 2 ^ 32 := by
  have hword : ∀ n, n &&& 0xffff = n % 2 ^ 16 := fun n => Nat.and_two_pow_sub_one_eq_mod n 16
  have hlong : ∀ n, n &&& 0xffffffff = n % 2 ^ 32 := fun n => Nat.and_two_pow_sub_one_eq_mod n 32
  simp only [addInt, hword, hlong, Nat.shiftRight_eq_div_pow, Nat.div_div_eq_div_mul]
  refine ⟨?_, ?_, ?_, ?_⟩
  · rw [Mem.readLE_writeLE_disjoint (by omega), Mem.readLE_writeLE_disjoint (by omega),
      Mem.readLE_writeLE_disjoint (by omega), Mem.readLE_writeLE]
    rfl
  · rw [Mem.readLE_writeLE_disjoint (by omega), Mem.readLE_writeLE_disjoint (by omega),
      Mem.readLE_writeLE]
    exact Nat.mod_mod _ _
  · rw [Mem.readLE_writeLE_disjoint (by omega), Mem.readLE_writeLE]
    exact Nat.mod_mod _ _
  · rw [Mem.readLE_writeLE]
    exact Nat.mod_mod _ _

theorem entry_addInt_self : Entry.ofMem (addInt m idt gate index handler) (entryAddr idt index.code) =
    (Entry.ofMem m (entryAddr idt index.code)).assigned gate handler := by
  obtain ⟨hselector, hoffset1, hoffset2, hoffset3⟩ :=
    @addInt_words m idt gate index handler
  have hist : addInt m idt gate index handler (entryAddr idt index.code + 4) =
      m (entryAddr idt index.code + 4) := addInt_of_outside (by omega)
  have hreserved : (addInt m idt gate index handler).readLE (entryAddr idt index.code + 12) 4 =
      m.readLE (entryAddr idt index.code + 12) 4 :=
    Mem.readLE_congr fun y hy _ => addInt_of_outside (by omega)
  have hgate : gate.code % 2 ^ 4 = gate.code := by cases gate <;> rfl
  simp only [Entry.ofMem, Entry.assigned, hselector, hoffset1, hoffset2, hoffset3, hist, hreserved,
    addInt_flags]
  rw [BitField.get_set, hgate, BitField.get_set_disjoint (show 4 + 1 ≤ 0 ∨ 0 + 4 ≤ 4 by decide),
    BitField.get_set_disjoint (show 4 + 1 ≤ 7 ∨ 7 + 1 ≤ 4 by decide),
    BitField.get_set_disjoint (show 5 + 2 ≤ 0 ∨ 0 + 4 ≤ 5 by decide),
    BitField.get_set_disjoint (show 5 + 2 ≤ 7 ∨ 7 + 1 ≤ 5 by decide),
    BitField.get_set_disjoint (show 7 + 1 ≤ 0 ∨ 0 + 4 ≤ 7 by decide), BitField.get_set]
  rfl

/-! ## The constructor -/

theorem Interrupt.code_inj {i j : Interrupt} (h : i.code = j.code) : i = j := by
  cases i <;> cases j <;> first | rfl | exact absurd h (by decide)

/-- Some calls of `add_int`. -/
def addInts (handlers : Interrupt → BitVec 64) (idt : Nat) (m : Mem)
    (calls : List (Gate × Interrupt)) : Mem :=
  calls.foldl (fun m i => addInt m idt i.1 i.2 (handlers i.2)) m

variable {handlers : Interrupt → BitVec 64} {calls : List (Gate × Interrupt)}

theorem entry_addInts_of_ne (h : ∀ c ∈ calls, v ≠ c.2.code) :
    Entry.ofMem (addInts handlers idt m calls) (entryAddr idt v) =
      Entry.ofMem m (entryAddr idt v) := by
  induction calls generalizing m with
  | nil => rfl
  | cons c calls ih =>
    rw [addInts, List.foldl_cons, ← addInts, ih fun c hc => h c (List.mem_cons_of_mem _ hc)]
    exact entry_addInt_of_ne (h c List.mem_cons_self)

theorem entry_addInts_of_mem (nodup : (calls.map Prod.snd).Nodup) (h : (gate, index) ∈ calls) :
    Entry.ofMem (addInts handlers idt m calls) (entryAddr idt index.code) =
      (Entry.ofMem m (entryAddr idt index.code)).assigned gate (handlers index) := by
  induction calls generalizing m with
  | nil => exact absurd h List.not_mem_nil
  | cons c calls ih =>
    rw [List.map_cons, List.nodup_cons] at nodup
    rw [addInts, List.foldl_cons, ← addInts]
    rcases List.mem_cons.mp h with rfl | h
    · -- no later call has the vector
      have later : ∀ c ∈ calls, index.code ≠ c.2.code := by
        intro c hc heq
        have hmem : c.2 ∈ calls.map Prod.snd := List.mem_map_of_mem hc
        rw [← Interrupt.code_inj heq] at hmem
        exact nodup.1 hmem
      rw [entry_addInts_of_ne later, entry_addInt_self]
    · have other : index.code ≠ c.2.code := by
        intro heq
        have hmem : index ∈ calls.map Prod.snd := List.mem_map_of_mem h
        rw [Interrupt.code_inj heq] at hmem
        exact nodup.1 hmem
      rw [ih nodup.2 h, entry_addInt_of_ne other]

/-! ## The table -/

/-- A gate of 64 bits for a handler, with nothing in the fields that have to be zero. -/
structure Entry.WellFormed (e : Entry) (gate : Gate) (handler : BitVec 64) : Prop where
  selector : e.segmentSelector = KERNEL_CODE
  gateType : e.gateType = gate.code
  ist : e.ist = 0
  dpl : e.dpl = 0
  zero : e.ignore1 = 0 ∧ e.ignore2 = 0 ∧ e.reserved1 = 0
  offset : e.offset1 ||| e.offset2 <<< 16 ||| e.offset3 <<< 32 = handler.toNat

/-- What the table should be: an entry is present for the vectors that `add_int` was called for, and
those are well-formed. -/
structure WellFormed (handlers : Interrupt → BitVec 64) (idt : Nat) (m : Mem) : Prop where
  present_iff : ∀ v < ALL_IDT_ENTRIES, (Entry.ofMem m (entryAddr idt v)).present = 1 ↔
    ∃ gate index, (gate, index) ∈ INTERRUPTS ∧ v = index.code
  gates : ∀ gate index, (gate, index) ∈ INTERRUPTS →
    (Entry.ofMem m (entryAddr idt index.code)).WellFormed gate (handlers index)

/-- The bits that are not assigned are right. -/
structure Cleared (idt : Nat) (m : Mem) : Prop where
  others : ∀ v < ALL_IDT_ENTRIES, (∀ index : Interrupt, v ≠ index.code) →
    (Entry.ofMem m (entryAddr idt v)).present = 0
  fields : ∀ index : Interrupt, let e := Entry.ofMem m (entryAddr idt index.code)
    e.ist = 0 ∧ e.dpl = 0 ∧ e.ignore1 = 0 ∧ e.ignore2 = 0 ∧ e.reserved1 = 0

theorem exists_gate (index : Interrupt) : ∃ gate, (gate, index) ∈ INTERRUPTS := by
  cases index with
  | DIVISION_BY_ZERO => exact ⟨.TRAP_GATE, by decide⟩
  | PAGE_FAULT => exact ⟨.INTERRUPT_GATE, by decide⟩
  | TIMER => exact ⟨.INTERRUPT_GATE, by decide⟩
  | KEYBOARD => exact ⟨.INTERRUPT_GATE, by decide⟩
  | SPURIOUS => exact ⟨.INTERRUPT_GATE, by decide⟩

/-- The three parts of an address are the address. -/
theorem offset_parts (handler : BitVec 64) : handler.toNat % 2 ^ 16 |||
    (handler.toNat / 2 ^ 16 % 2 ^ 16) <<< 16 ||| (handler.toNat / 2 ^ 32 % 2 ^ 32) <<< 32 =
      handler.toNat := by
  have hlt := handler.isLt
  refine Nat.eq_of_testBit_eq fun j => ?_
  simp only [Nat.testBit_or, Nat.testBit_shiftLeft, Nat.testBit_mod_two_pow,
    Nat.testBit_div_two_pow]
  by_cases h16 : j < 16
  · simp [h16, show ¬ 16 ≤ j by omega, show ¬ 32 ≤ j by omega]
  by_cases h32 : j < 32
  · simp [h16, show 16 ≤ j by omega, show ¬ 32 ≤ j by omega, show j - 16 < 16 by omega,
      show j - 16 + 16 = j by omega]
  by_cases h64 : j < 64
  · simp [h16, show ¬ j - 16 < 16 by omega, show 32 ≤ j by omega, show j - 32 < 32 by omega,
      show j - 32 + 32 = j by omega]
  · have hzero : handler.toNat.testBit j = false :=
      Nat.testBit_lt_two_pow (Nat.lt_of_lt_of_le hlt (Nat.pow_le_pow_right (by decide) (by omega)))
    simp [h16, show ¬ j - 16 < 16 by omega, show ¬ j - 32 < 32 by omega, hzero]

theorem Entry.present_lt (m : Mem) (a : Nat) : (Entry.ofMem m a).present < 2 :=
  Nat.mod_lt _ (by decide)

/-- **The table is right exactly when the memory was clear.** For any memory, handlers and place of
the table: after the constructor an entry is present if and only if `add_int` was called for its
vector, and these entries are well-formed gates, if and only if before it no other entry was present
and the fields of these that `add_int` does not assign were zero. -/
theorem table_wellFormed_iff (handlers : Interrupt → BitVec 64) (idt : Nat) (m : Mem) :
    WellFormed handlers idt (new handlers idt m).1 ↔ Cleared idt m := by
  have hself : ∀ gate index, (gate, index) ∈ INTERRUPTS →
      Entry.ofMem (new handlers idt m).1 (entryAddr idt index.code) =
        (Entry.ofMem m (entryAddr idt index.code)).assigned gate (handlers index) :=
    fun gate index h => entry_addInts_of_mem (by decide) h
  have hother : ∀ v, (∀ index : Interrupt, v ≠ index.code) →
      Entry.ofMem (new handlers idt m).1 (entryAddr idt v) = Entry.ofMem m (entryAddr idt v) :=
    fun v h => entry_addInts_of_ne fun c _ => h c.2
  constructor
  · intro table
    constructor
    · intro v hv none
      have absent : ¬ (Entry.ofMem m (entryAddr idt v)).present = 1 := by
        rw [← hother v none, table.present_iff v hv]
        rintro ⟨-, index, -, heq⟩
        exact none index heq
      have := Entry.present_lt m (entryAddr idt v)
      omega
    · intro index
      obtain ⟨gate, hgate⟩ := exists_gate index
      have entry := table.gates gate index hgate
      rw [hself gate index hgate] at entry
      exact ⟨entry.ist, entry.dpl, entry.zero.1, entry.zero.2.1, entry.zero.2.2⟩
  · intro cleared
    constructor
    · intro v hv
      by_cases hcode : ∃ index : Interrupt, v = index.code
      · obtain ⟨index, rfl⟩ := hcode
        obtain ⟨gate, hgate⟩ := exists_gate index
        rw [hself gate index hgate]
        exact iff_of_true rfl ⟨gate, index, hgate, rfl⟩
      · have none : ∀ index : Interrupt, v ≠ index.code := fun index h => hcode ⟨index, h⟩
        rw [hother v none, cleared.others v hv none]
        exact iff_of_false (by decide) fun ⟨_, index, _, h⟩ => none index h
    · intro gate index hgate
      obtain ⟨hist, hdpl, hignore1, hignore2, hreserved⟩ := cleared.fields index
      rw [hself gate index hgate]
      exact ⟨rfl, rfl, hist, hdpl, ⟨hignore1, hignore2, hreserved⟩, offset_parts (handlers index)⟩

/-- On a stack that is full of ones, the entry of vector 1 is present though nothing was added for
it, and the page fault's gate has a privilege level of 3. -/
theorem dirty_table_not_wellFormed :
    (Entry.ofMem (new (fun _ => 0x100000) 0x8000 fun _ => 0xff).1 (entryAddr 0x8000 1)).present = 1 ∧
      (Entry.ofMem (new (fun _ => 0x100000) 0x8000 fun _ => 0xff).1 (entryAddr 0x8000 14)).dpl = 3 ∧
      ¬ WellFormed (fun _ => 0x100000) 0x8000 (new (fun _ => 0x100000) 0x8000 fun _ => 0xff).1 := by
  have hpresent : (Entry.ofMem (new (fun _ => 0x100000) 0x8000 fun _ => 0xff).1
      (entryAddr 0x8000 1)).present = 1 := by decide +kernel
  have hdpl : (Entry.ofMem (new (fun _ => 0x100000) 0x8000 fun _ => 0xff).1
      (entryAddr 0x8000 14)).dpl = 3 := by decide +kernel
  refine ⟨hpresent, hdpl, fun table => ?_⟩
  have gate := table.gates .INTERRUPT_GATE .PAGE_FAULT (by decide)
  exact absurd (hdpl.symm.trans gate.dpl) (by decide)

end PrintOS.Idt
