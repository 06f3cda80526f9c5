import Mathlib.Computability.StateTransition
import PrintOS.Cpu.Cpu

/-!
# What `get_cpuid` promises its callers

Each result of `cpuid` is stored where its pointer is not null, and nothing else is written
(`Outputs.Stored`). That much holds of every call. A callee has to give back `rbx`, `rbp`, `rsp` and
`r12` to `r15` as well (`Saved`), and the routine uses three of them without saving: `cpuid`
overwrites `rbx`, and `r12` and `r13` keep two of the pointers. So a call keeps the whole contract
exactly when these registers already had what it leaves in them (`contract_iff`).

A run is a run of the step function to its end, `StateTransition.eval`.
-/

namespace PrintOS.Cpu

open ByteMemory (Mem Byte)
open StateTransition (Reaches eval mem_eval)

variable {cpuid : BitVec 32 → BitVec 32 → CpuidResult} {s : Machine} {regs : Regs} {zf : Bool}
  {m : Mem}

/-! ## The outputs -/

/-- A result stored through a pointer, unless that is null. -/
def storeOutput (m : Mem) (output : BitVec 64 × BitVec 32) : Mem :=
  if output.1 = 0 then m else m.writeLE output.1.toNat 4 output.2.toNat

/-- The pointers and the results that belong to them, in the order in which they are stored. -/
abbrev Outputs := List (BitVec 64 × BitVec 32)

namespace Outputs

/-- The pointers that are not null are to separate words of the memory. -/
structure Apart (outputs : Outputs) : Prop where
  pairwise : outputs.Pairwise fun o p =>
    o.1 ≠ 0 → p.1 ≠ 0 → o.1.toNat + 4 ≤ p.1.toNat ∨ p.1.toNat + 4 ≤ o.1.toNat
  memory : ∀ o ∈ outputs, o.1.toNat + 4 ≤ 2 ^ 64

/-- Each result is where its pointer says, and every other byte is as it was. -/
structure Stored (outputs : Outputs) (m m' : Mem) : Prop where
  results : ∀ o ∈ outputs, o.1 ≠ 0 → m'.readLE o.1.toNat 4 = o.2.toNat
  others : ∀ b, (∀ o ∈ outputs, o.1 ≠ 0 → b < o.1.toNat ∨ o.1.toNat + 4 ≤ b) → m' b = m b

theorem storeOutput_of_outside {o : BitVec 64 × BitVec 32} {b : Nat}
    (h : o.1 ≠ 0 → b < o.1.toNat ∨ o.1.toNat + 4 ≤ b) : storeOutput m o b = m b := by
  unfold storeOutput
  split
  · rfl
  next hne => exact Mem.writeLE_of_outside 4 m _ (h hne)

theorem stored {outputs : Outputs} (apart : outputs.Apart) :
    outputs.Stored m (outputs.foldl storeOutput m) := by
  obtain ⟨pairwise, memory⟩ := apart
  induction outputs generalizing m with
  | nil => exact ⟨fun _ h => absurd h List.not_mem_nil, fun _ _ => rfl⟩
  | cons o outputs ih =>
    obtain ⟨hfirst, hrest⟩ := List.pairwise_cons.mp pairwise
    have rest : Stored outputs (storeOutput m o) (outputs.foldl storeOutput (storeOutput m o)) :=
      ih hrest fun p hp => memory p (List.mem_cons_of_mem o hp)
    rw [List.foldl_cons]
    constructor
    · intro p hp hne
      rcases List.mem_cons.mp hp with rfl | hp
      · -- the later ones do not reach this word
        have later : (outputs.foldl storeOutput (storeOutput m p)).readLE p.1.toNat 4 =
            (storeOutput m p).readLE p.1.toNat 4 := by
          refine Mem.readLE_congr fun b hb hb' => rest.others b fun q hq hq0 => ?_
          have := hfirst q hq hne hq0
          omega
        rw [later, storeOutput, if_neg hne, Mem.readLE_writeLE]
        exact Nat.mod_eq_of_lt p.2.isLt
      · exact rest.results p hp hne
    · intro b hb
      rw [rest.others b fun p hp => hb p (List.mem_cons_of_mem o hp)]
      exact storeOutput_of_outside (hb o List.mem_cons_self)

end Outputs

/-! ## The lines -/

/-- The output of a store, by its two registers. -/
def output (regs : Regs) (ptr src : Reg) : BitVec 64 × BitVec 32 := (regs ptr, low (regs src))

/-- The three or six lines of one output: a check, and where the pointer is not null the store and a
jump to the next check. -/
theorem check_reaches (ptr src : Reg) (here l next : Label) (zf : Bool) (m : Mem)
    (lines : getCpuid[lineOf here]? = some (.label here) ∧
      getCpuid[lineOf here + 1]? = some (.cmpNull ptr) ∧
      getCpuid[lineOf here + 2]? = some (.jne l) ∧ lineOf here + 3 = lineOf next ∧
      getCpuid[lineOf l]? = some (.label l) ∧ getCpuid[lineOf l + 1]? = some (.store32 ptr src) ∧
      getCpuid[lineOf l + 2]? = some (.jmp next)) :
    ∃ zf', Reaches (step cpuid) ⟨.line (lineOf here), regs, zf, m⟩
      ⟨.line (lineOf next), regs, zf', storeOutput m (output regs ptr src)⟩ := by
  obtain ⟨hlabel, hcmp, hjne, hnext, hstoreLabel, hstore, hjmp⟩ := lines
  have checked : Reaches (step cpuid) ⟨.line (lineOf here), regs, zf, m⟩
      ⟨.line (lineOf here + 2), regs, regs ptr = 0, m⟩ := by
    refine .head (b := ⟨.line (lineOf here + 1), regs, zf, m⟩) ?_ (.single ?_)
    · show (getCpuid[lineOf here]?).map _ = _
      rw [hlabel]
      rfl
    · show (getCpuid[lineOf here + 1]?).map _ = _
      rw [hcmp]
      rfl
  refine ⟨decide (regs ptr = 0), checked.trans ?_⟩
  by_cases hnull : regs ptr = 0
  · have hout : storeOutput m (output regs ptr src) = m := if_pos hnull
    rw [hout]
    refine .single ?_
    show (getCpuid[lineOf here + 2]?).map _ = _
    rw [hjne, ← hnext]
    simp only [Option.map_some, exec, hnull, decide_true, if_true]
  · have hout : storeOutput m (output regs ptr src) =
        m.writeLE (regs ptr).toNat 4 (low (regs src)).toNat := if_neg hnull
    rw [hout]
    refine .head (b := ⟨.line (lineOf l), regs, regs ptr = 0, m⟩) ?_
      (.head (b := ⟨.line (lineOf l + 1), regs, regs ptr = 0, m⟩) ?_
        (.head (b := ⟨.line (lineOf l + 2), regs, regs ptr = 0,
          m.writeLE (regs ptr).toNat 4 (low (regs src)).toNat⟩) ?_ (.single ?_)))
    · show (getCpuid[lineOf here + 2]?).map _ = _
      rw [hjne]
      simp only [Option.map_some, exec, hnull, decide_false, if_false, Bool.false_eq_true]
    · show (getCpuid[lineOf l]?).map _ = _
      rw [hstoreLabel]
      rfl
    · show (getCpuid[lineOf l + 1]?).map _ = _
      rw [hstore]
      rfl
    · show (getCpuid[lineOf l + 2]?).map _ = _
      rw [hjmp]
      rfl

/-- The registers once `cpuid` has answered. -/
def answered (cpuid : BitVec 32 → BitVec 32 → CpuidResult) (regs : Regs) : Regs :=
  let kept := (((regs.set .r10 (regs .rsi)).set .r11 (regs .rdx)).set .r12 (regs .rcx)).set .r13
    (regs .r8)
  let asked := kept.set .rax (wide (low (regs .rdi)))
  asked.setResult (asked.answer cpuid)

theorem entry_reaches : Reaches (step cpuid) ⟨.line 0, regs, zf, m⟩
    ⟨.line (lineOf .check_eax_param), answered cpuid regs, zf, m⟩ :=
  .head rfl (.head rfl (.head rfl (.head rfl (.head rfl (.single rfl)))))

/-- What is asked of `cpuid`: the leaf, and whatever the caller left in `ecx`. -/
def result (cpuid : BitVec 32 → BitVec 32 → CpuidResult) (regs : Regs) : CpuidResult :=
  cpuid (low (regs .rdi)) (low (regs .rcx))

/-- The outputs of a call. -/
def outputs (cpuid : BitVec 32 → BitVec 32 → CpuidResult) (regs : Regs) : Outputs :=
  [(regs .rsi, (result cpuid regs).eax), (regs .rdx, (result cpuid regs).ebx),
    (regs .rcx, (result cpuid regs).ecx), (regs .r8, (result cpuid regs).edx)]

theorem low_wide (v : BitVec 32) : low (wide v) = v := by
  apply BitVec.eq_of_toNat_eq
  have hv := v.isLt
  rw [low, wide, BitVec.toNat_setWidth, BitVec.toNat_setWidth]
  omega

/-- `cpuid` is asked for the leaf of the call, and its results go to the pointers of the call. -/
theorem outputs_eq : outputs cpuid regs =
    [output (answered cpuid regs) .r10 .rax, output (answered cpuid regs) .r11 .rbx,
      output (answered cpuid regs) .r12 .rcx, output (answered cpuid regs) .r13 .rdx] := by
  have hresult : (((((regs.set .r10 (regs .rsi)).set .r11 (regs .rdx)).set .r12 (regs .rcx)).set .r13
      (regs .r8)).set .rax (wide (low (regs .rdi)))).answer cpuid = result cpuid regs := by
    show cpuid (low (wide (low (regs .rdi)))) (low (regs .rcx)) = _
    rw [low_wide]
    rfl
  simp only [outputs, output, answered, hresult]
  simp only [Regs.setResult, Regs.set, reduceCtorEq, if_true, if_false, low_wide]

/-- **The routine returns**, with each result stored and the registers as `cpuid` left them. -/
theorem returns (cpuid : BitVec 32 → BitVec 32 → CpuidResult) (regs : Regs) (zf : Bool) (m : Mem) :
    ∃ s', s' ∈ eval (step cpuid) ⟨.line 0, regs, zf, m⟩ ∧
      s'.place = .caller (s'.mem.read64 (regs .rsp).toNat) ∧
      s'.mem = (outputs cpuid regs).foldl storeOutput m ∧
      s'.regs = (answered cpuid regs).set .rsp (regs .rsp + 8) := by
  obtain ⟨zf₁, first⟩ := @check_reaches cpuid (answered cpuid regs) .r10 .rax
    .check_eax_param .ret_eax_param .check_ebx_param zf m (by decide)
  obtain ⟨zf₂, second⟩ := @check_reaches cpuid (answered cpuid regs) .r11 .rbx
    .check_ebx_param .ret_ebx_param .check_ecx_param zf₁ _ (by decide)
  obtain ⟨zf₃, third⟩ := @check_reaches cpuid (answered cpuid regs) .r12 .rcx
    .check_ecx_param .ret_ecx_param .check_edx_param zf₂ _ (by decide)
  obtain ⟨zf₄, fourth⟩ := @check_reaches cpuid (answered cpuid regs) .r13 .rdx
    .check_edx_param .ret_edx_param .returns zf₃ _ (by decide)
  have stored := (((entry_reaches.trans first).trans second).trans third).trans fourth
  refine ⟨_, mem_eval.mpr ⟨stored.trans (.head rfl (.single rfl)), rfl⟩, rfl, ?_, rfl⟩
  rw [outputs_eq]
  rfl

/-! ## The contract -/

/-- The registers that a callee gives back as they were. `rsp` is as it was before the call, which
put the return address on the stack. -/
structure Saved (regs regs' : Regs) : Prop where
  rbx : regs' .rbx = regs .rbx
  rbp : regs' .rbp = regs .rbp
  rsp : regs' .rsp = regs .rsp + 8
  r12 : regs' .r12 = regs .r12
  r13 : regs' .r13 = regs .r13
  r14 : regs' .r14 = regs .r14
  r15 : regs' .r15 = regs .r15

/-- What a call of `get_cpuid` promises. -/
structure Contract (cpuid : BitVec 32 → BitVec 32 → CpuidResult) (s s' : Machine) : Prop where
  stored : (outputs cpuid s.regs).Stored s.mem s'.mem
  saved : Saved s.regs s'.regs

/-- The registers that the routine uses without saving had what it leaves in them. -/
structure Unharmed (cpuid : BitVec 32 → BitVec 32 → CpuidResult) (regs : Regs) : Prop where
  rbx : regs .rbx = wide (result cpuid regs).ebx
  r12 : regs .r12 = regs .rcx
  r13 : regs .r13 = regs .r8

theorem answered_rbx : answered cpuid regs .rbx = wide (result cpuid regs).ebx := by
  show wide (cpuid (low (wide (low (regs .rdi)))) (low (regs .rcx))).ebx = _
  rw [low_wide]
  rfl

theorem saved_iff : Saved regs ((answered cpuid regs).set .rsp (regs .rsp + 8)) ↔
    Unharmed cpuid regs := by
  have hrbx : (answered cpuid regs).set .rsp (regs .rsp + 8) .rbx = wide (result cpuid regs).ebx :=
    answered_rbx
  constructor
  · intro saved
    exact ⟨saved.rbx.symm.trans hrbx, saved.r12.symm, saved.r13.symm⟩
  · intro unharmed
    exact ⟨hrbx.trans unharmed.rbx.symm, rfl, rfl, unharmed.r12.symm, unharmed.r13.symm, rfl, rfl⟩

/-- **The contract is kept exactly when the registers that are not saved had the right values.**
Every call returns, and has stored the results through the pointers that are not null and written
nothing else, whatever the processor answers and whatever is in the registers; the rest of the
contract hangs on `rbx`, `r12` and `r13`. -/
theorem contract_iff (cpuid : BitVec 32 → BitVec 32 → CpuidResult) (s : Machine)
    (entry : s.place = .line 0) (apart : (outputs cpuid s.regs).Apart) :
    ∃ s', s' ∈ eval (step cpuid) s ∧
      s'.place = .caller (s'.mem.read64 (s.regs .rsp).toNat) ∧
      (outputs cpuid s.regs).Stored s.mem s'.mem ∧
      (Contract cpuid s s' ↔ Unharmed cpuid s.regs) := by
  obtain ⟨place, regs, zf, m⟩ := s
  obtain rfl : place = .line 0 := entry
  obtain ⟨s', hs', hplace, hmem, hregs⟩ := returns cpuid regs zf m
  have stored : (outputs cpuid regs).Stored m s'.mem := by
    rw [hmem]
    exact Outputs.stored apart
  have hsaved : Saved regs s'.regs ↔ Unharmed cpuid regs := by
    rw [hregs]
    exact saved_iff
  exact ⟨s', hs', hplace, stored, fun contract => hsaved.mp contract.saved,
    fun unharmed => ⟨stored, hsaved.mpr unharmed⟩⟩

/-- A processor that answers its name. -/
def genuine : BitVec 32 → BitVec 32 → CpuidResult := fun _ _ =>
  { eax := 0x16, ebx := 0x756e6547, ecx := 0x6c65746e, edx := 0x49656e69 }

/-- A call for the name, with three pointers to words on the stack. -/
def nameCall (rbx r12 r13 : BitVec 64) : Machine where
  place := .line 0
  regs := fun
    | .rdx => 0x7f04
    | .rcx => 0x7f08
    | .r8 => 0x7f0c
    | .rsp => 0x7e00
    | .rbx => rbx
    | .r12 => r12
    | .r13 => r13
    | _ => 0
  zf := false
  mem := fun _ => 0

theorem nameCall_apart (rbx r12 r13 : BitVec 64) :
    (outputs genuine (nameCall rbx r12 r13).regs).Apart where
  pairwise := by
    show List.Pairwise _ [((0 : BitVec 64), (0x16 : BitVec 32)), (0x7f04, 0x756e6547),
      (0x7f08, 0x6c65746e), (0x7f0c, 0x49656e69)]
    decide
  memory := by
    intro o ho
    have hlist : o ∈ [((0 : BitVec 64), (0x16 : BitVec 32)), (0x7f04, 0x756e6547),
      (0x7f08, 0x6c65746e), (0x7f0c, 0x49656e69)] := ho
    simp only [List.mem_cons, List.not_mem_nil, or_false] at hlist
    rcases hlist with rfl | rfl | rfl | rfl
    · decide
    · decide
    · decide
    · decide

/-- With the answer and the two pointers already in the registers, the contract is kept. -/
theorem nameCall_contract : ∃ s', s' ∈ eval (step genuine) (nameCall 0x756e6547 0x7f08 0x7f0c) ∧
    Contract genuine (nameCall 0x756e6547 0x7f08 0x7f0c) s' := by
  obtain ⟨s', hs', -, -, hcontract⟩ :=
    contract_iff genuine (nameCall 0x756e6547 0x7f08 0x7f0c) rfl (nameCall_apart _ _ _)
  exact ⟨s', hs', hcontract.mpr ⟨rfl, rfl, rfl⟩⟩

/-- A caller that keeps a value in `rbx` loses it. -/
theorem nameCall_loses_rbx : (nameCall 1 2 3).place = .line 0 ∧
    (outputs genuine (nameCall 1 2 3).regs).Apart ∧
    ∃ s', s' ∈ eval (step genuine) (nameCall 1 2 3) ∧ s'.regs .rbx = 0x756e6547 ∧
      ¬ Contract genuine (nameCall 1 2 3) s' := by
  obtain ⟨s', hs', -, -, hregs⟩ := returns genuine (nameCall 1 2 3).regs false fun _ => 0
  have hrbx : s'.regs .rbx = 0x756e6547 := by
    rw [hregs]
    rfl
  refine ⟨rfl, nameCall_apart 1 2 3, s', hs', hrbx, fun contract => ?_⟩
  exact absurd (hrbx.symm.trans contract.saved.rbx) (by decide)

end PrintOS.Cpu
