import PrintOS.Laws.Bootloader.Main
import PrintOS.Lib.Run

/-!
# The memory map

`get_memory_map` asks the firmware for the size of the map, allocates a buffer of that size, and
asks for the map. The allocation is a call of the firmware too, and may change the map: where it
cuts a region in two there is a descriptor more. The buffer has no room for it, and nothing is tried
again. So the map is got, once there is a buffer, exactly when it has not grown since its size was
asked for (`memory_map_got_iff`).

A firmware answers `GetMemoryMap` by the size that it is told (`MapsAnswered`). The map that it has
may be another one at each call.
-/

namespace PrintOS.Bootloader

open ByteMemory (Mem Byte)
open Program

/-- `GetMemoryMap` gives the map that there is when it is called, if there is a buffer and it is
large enough, and says so if it is too small. -/
def MapsAnswered (fw : Firmware) (u : Efi) : Prop :=
  ∀ i mapSize memoryMap status, u.calls[i]? = some (.getMemoryMap mapSize memoryMap, status) →
    (status = EFI_SUCCESS ↔ memoryMap.isSome = true ∧ (fw.memoryMap i).length ≤ mapSize) ∧
      (status = EFI_BUFFER_TOO_SMALL ↔ mapSize < (fw.memoryMap i).length)

/-- The map that the firmware has at a call is in memory, where the pointer says and as long as the
size says. -/
structure MapComplete (fw : Firmware) (n : Nat) (r : EfiStatus × Option Nat × MapInfo) (u : Efi) :
    Prop where
  done : r.1 = EFI_SUCCESS
  size : r.2.2.mapSize = (fw.memoryMap n).length
  whole : ∃ buffer, r.2.1 = some buffer ∧ u.mem.HoldsAt buffer (fw.memoryMap n)

section Calls

variable {fw : Firmware} {E : Stop → Prop} {s : Efi}

/-- What `get_memory_map` does once it has a buffer: the second `GetMemoryMap` is told the size that
the map had at the first one. -/
theorem getMemoryMap_calls :
    wp (getMemoryMap fw) E (fun r u =>
      (∀ size, (.allocatePool size, EFI_SUCCESS) ∈ u.calls.drop s.calls.length →
        ∃ buffer, u.calls[s.calls.length + 2]? = some (.getMemoryMap
            (fw.memoryMap s.calls.length).length (some buffer), r.1) ∧
          (r.1 = EFI_SUCCESS → MapComplete fw (s.calls.length + 2) r u))) s := by
  rw [getMemoryMap, wp_bind]
  apply getMemoryMapInto_spec
  intro t ht _
  have htlength : t.calls.length = s.calls.length + 1 := by
    rw [ht]
    exact List.length_append
  rw [wp_ite]
  refine ⟨fun _ size mem => ?_, fun _ => ?_⟩
  · -- the size was not told, and no buffer asked for
    have hdrop : t.calls.drop s.calls.length =
        [(.getMemoryMap 0 none, fw.status s.calls.length)] := by
      rw [ht, List.drop_left]
    change (Call.allocatePool size, EFI_SUCCESS) ∈ t.calls.drop s.calls.length at mem
    rw [hdrop] at mem
    simp at mem
  rw [wp_bind]
  apply allocatePool_spec
  intro u hu _
  have hulength : u.calls.length = s.calls.length + 2 := by
    rw [hu, List.length_append, htlength]
    rfl
  rw [wp_ite]
  refine ⟨fun failed size mem => ?_, fun given => ?_⟩
  · -- there was no memory for the buffer
    have hdrop : u.calls.drop s.calls.length =
        [(.getMemoryMap 0 none, fw.status s.calls.length),
          (.allocatePool (fw.memoryMap s.calls.length).length, fw.status t.calls.length)] := by
      rw [hu, ht, List.append_assoc, List.drop_left]
      rfl
    change (Call.allocatePool size, EFI_SUCCESS) ∈ u.calls.drop s.calls.length at mem
    rw [hdrop] at mem
    simp only [List.mem_cons, Prod.mk.injEq, List.not_mem_nil, or_false, reduceCtorEq, false_and,
      false_or] at mem
    exact absurd mem.2.symm failed
  have given := not_not.mp given
  rw [if_pos given, wp_bind]
  apply getMemoryMapInto_spec
  intro v hv hmem
  rw [wp_bind]
  apply report_spec
  intro w hw hheld size _
  have hwmem : w.mem = v.mem := congrArg Held.mem hheld
  refine ⟨fw.pool t.calls.length, ?_, fun done => ⟨done, ?_, fw.pool t.calls.length, rfl, ?_⟩⟩
  · rw [hw, hv, ← hulength]
    exact List.getElem?_concat_length
  · rw [← hulength]
  · rw [hwmem, hmem done, ← hulength]
    exact Mem.holdsAt_copy _ _ _

end Calls

/-- **The map is got exactly when it has not grown.** `get_memory_map` ends, on any firmware. Where
the firmware answers by the sizes that it is told and the buffer was allocated, it returns success
with the whole map that there is at its last call if and only if that map is no longer than the one
whose size was asked for. -/
theorem memory_map_got_iff (fw : Firmware) (s : Efi) :
    ∃ r u, getMemoryMap fw s = .ok (r, u) ∧
      ∀ size, MapsAnswered fw u →
        (.allocatePool size, EFI_SUCCESS) ∈ u.calls.drop s.calls.length →
          (MapComplete fw (s.calls.length + 2) r u ↔
            (fw.memoryMap (s.calls.length + 2)).length ≤ (fw.memoryMap s.calls.length).length) := by
  have ends : wp (getMemoryMap fw) (fun _ => False) _ s := getMemoryMap_calls
  obtain ⟨r, u, ended, calls⟩ := exists_of_wp ends
  refine ⟨r, u, ended, fun size answered given => ?_⟩
  obtain ⟨buffer, last, complete⟩ := calls size given
  obtain ⟨success, -⟩ := answered _ _ _ _ last
  constructor
  · intro got
    exact (success.mp got.done).2
  · intro fits
    exact complete (success.mpr ⟨rfl, fits⟩)

/-- A firmware whose map has some descriptors of 48 bytes at each call, and which answers the last
call by whether there is room. -/
def mapFirmware (descriptors : Nat → Nat) : Firmware where
  status := fun n => if n = 0 then EFI_BUFFER_TOO_SMALL
    else if n = 1 ∨ descriptors 2 ≤ descriptors 0 then EFI_SUCCESS else EFI_BUFFER_TOO_SMALL
  pool := fun _ => 0x8000
  memoryMap := fun n => .replicate (48 * descriptors n) 7
  mapKey := fun _ => 0
  descriptorSize := fun _ => 48
  volume := fun _ => []
  mode := ⟨0, 0, 0, 0, 0⟩
  configurationTable := []
  stack := fun _ => 0

/-- The three calls, with their answers, for maps of some sizes. -/
theorem mapsAnswered_of_calls {fw : Firmware} {u : Efi} {size buffer : Nat} {status : EfiStatus}
    (calls : u.calls = [(.getMemoryMap 0 none, EFI_BUFFER_TOO_SMALL),
      (.allocatePool size, EFI_SUCCESS), (.getMemoryMap size (some buffer), status)])
    (nonempty : 0 < (fw.memoryMap 0).length)
    (last : status = if (fw.memoryMap 2).length ≤ size then EFI_SUCCESS else EFI_BUFFER_TOO_SMALL) :
    MapsAnswered fw u := by
  have hne : EFI_BUFFER_TOO_SMALL ≠ EFI_SUCCESS := by decide
  intro i mapSize memoryMap status' h
  rw [calls] at h
  match i, h with
  | 0, h =>
    obtain ⟨⟨rfl, rfl⟩, rfl⟩ : (_ ∧ _) ∧ _ := by simpa using h
    exact ⟨iff_of_false hne fun h => Bool.false_ne_true h.1, iff_of_true rfl nonempty⟩
  | 1, h => exact absurd h (by simp)
  | 2, h =>
    obtain ⟨⟨rfl, rfl⟩, rfl⟩ : (_ ∧ _) ∧ _ := by simpa using h
    subst last
    split_ifs with fits
    · exact ⟨iff_of_true rfl ⟨rfl, fits⟩, iff_of_false hne.symm (Nat.not_lt.mpr fits)⟩
    · exact ⟨iff_of_false hne fun h => fits h.2, iff_of_true rfl (Nat.not_le.mp fits)⟩
  | i + 3, h => exact absurd h (by simp)

/-- A map that stays as it is is got. -/
theorem same_map_got : ∃ r u, getMemoryMap (mapFirmware fun _ => 2) (.start fun _ => 0) = .ok (r, u) ∧
    MapComplete (mapFirmware fun _ => 2) 2 r u := by
  obtain ⟨r, u, ended, got⟩ := memory_map_got_iff (mapFirmware fun _ => 2) (.start fun _ => 0)
  obtain ⟨r', ended', calls⟩ : ∃ r, getMemoryMap (mapFirmware fun _ => 2) (.start fun _ => 0) =
      .ok r ∧ r.2.calls = [(.getMemoryMap 0 none, EFI_BUFFER_TOO_SMALL),
        (.allocatePool 96, EFI_SUCCESS), (.getMemoryMap 96 (some 0x8000), EFI_SUCCESS)] := by
    apply Except.ok_of_toOption_map
    decide +kernel
  obtain rfl := Except.ok.inj (ended'.symm.trans ended)
  have answered : MapsAnswered (mapFirmware fun _ => 2) u :=
    mapsAnswered_of_calls calls (by decide) (by decide)
  refine ⟨r, u, ended, (got 96 answered ?_).mpr (Nat.le_refl _)⟩
  show (Call.allocatePool 96, EFI_SUCCESS) ∈ u.calls
  rw [calls]
  exact List.mem_cons_of_mem _ List.mem_cons_self

/-- Where the allocation adds a descriptor, the map does not fit, and the boot is given up. -/
theorem grown_map_not_got : ∃ r u,
    getMemoryMap (mapFirmware fun n => if n < 2 then 2 else 3) (.start fun _ => 0) = .ok (r, u) ∧
      MapsAnswered (mapFirmware fun n => if n < 2 then 2 else 3) u ∧
      (.allocatePool 96, EFI_SUCCESS) ∈ u.calls ∧ r.1 = EFI_BUFFER_TOO_SMALL ∧
      ¬ MapComplete (mapFirmware fun n => if n < 2 then 2 else 3) 2 r u := by
  obtain ⟨⟨r, u⟩, ended, heq⟩ : ∃ r, getMemoryMap (mapFirmware fun n => if n < 2 then 2 else 3)
      (.start fun _ => 0) = .ok r ∧ (r.1.1, r.2.calls) = (EFI_BUFFER_TOO_SMALL,
        [(.getMemoryMap 0 none, EFI_BUFFER_TOO_SMALL), (.allocatePool 96, EFI_SUCCESS),
          (.getMemoryMap 96 (some 0x8000), EFI_BUFFER_TOO_SMALL)]) := by
    apply Except.ok_of_toOption_map
    decide +kernel
  obtain ⟨failed, calls⟩ : r.1 = _ ∧ u.calls = _ := Prod.mk.inj heq
  refine ⟨r, u, ended, mapsAnswered_of_calls calls (by decide) (by decide), ?_, failed, ?_⟩
  · rw [calls]
    exact List.mem_cons_of_mem _ List.mem_cons_self
  · intro got
    exact absurd (failed.symm.trans got.done) (by decide)

end PrintOS.Bootloader
