import PrintOS.Bootloader.Efi

/-!
# What the services do

One law for each service that the bootloader calls: its status is the firmware's for the number of
the call, the call is written to the list of calls, and where it succeeds it does its work. The work
is told by what the bootloader holds (`Held`): memory, and the ranges that were handed out.

The laws are rules for `wp`: what is asked after the service has to hold of every state that the law
allows.
-/

namespace PrintOS.Bootloader

open ByteMemory (Mem Byte)
open Program

/-- What the loader's calls can change of what the laws speak of. -/
structure Held where
  mem : Mem
  pages : List Range
  pools : List Range

def Efi.held (s : Efi) : Held := ⟨s.mem, s.pages, s.pools⟩

def Held.copy (held : Held) (a : Nat) (bytes : List Byte) : Held :=
  { held with mem := held.mem.copy a bytes }

def Held.addPages (held : Held) (r : Range) : Held := { held with pages := held.pages ++ [r] }

def Held.addPool (held : Held) (r : Range) : Held := { held with pools := held.pools ++ [r] }

variable {fw : Firmware} {E : Stop → Prop} {s : Efi} {file : EfiFile}

theorem allocatePages_spec {pages address : Nat} {Q : EfiStatus → Efi → Prop}
    (h : ∀ t, t.calls = s.calls ++ [(.allocatePages pages address, fw.status s.calls.length)] →
      (fw.status s.calls.length = EFI_SUCCESS →
        t.held = s.held.addPages ⟨address, PAGE_SZ * pages⟩) →
      Q (fw.status s.calls.length) t) :
    wp (allocatePages fw pages address) E Q s := by
  rw [allocatePages, wp_bind]
  show wp (if fw.status s.calls.length = EFI_SUCCESS then _ else _) E Q _
  split_ifs with done
  · exact h _ rfl fun _ => rfl
  · exact h _ rfl fun h => absurd h done

theorem allocatePool_spec {size : Nat} {Q : EfiStatus × Option Nat → Efi → Prop}
    (h : ∀ t, t.calls = s.calls ++ [(.allocatePool size, fw.status s.calls.length)] →
      (fw.status s.calls.length = EFI_SUCCESS →
        t.held = s.held.addPool ⟨fw.pool s.calls.length, size⟩) →
      Q (fw.status s.calls.length,
        if fw.status s.calls.length = EFI_SUCCESS then some (fw.pool s.calls.length) else none) t) :
    wp (allocatePool fw size) E Q s := by
  rw [allocatePool, wp_bind, wp_get, wp_bind]
  show wp (if fw.status s.calls.length = EFI_SUCCESS then _ else _) E Q _
  split_ifs at h ⊢ with done
  · exact h _ rfl fun _ => rfl
  · exact h _ rfl fun h => absurd h done

theorem setPosition_spec {position : Nat} {Q : EfiStatus → Efi → Prop}
    (h : ∀ t, t.calls = s.calls ++ [(.setPosition file position, fw.status s.calls.length)] →
      (fw.status s.calls.length = EFI_SUCCESS →
        t.held = s.held ∧ t.position file = seek (fw.volume file.name) position) →
      Q (fw.status s.calls.length) t) :
    wp (setPosition fw file position) E Q s := by
  rw [setPosition, wp_bind]
  show wp (if fw.status s.calls.length = EFI_SUCCESS then _ else _) E Q _
  split_ifs with done
  · exact h _ rfl fun _ => ⟨rfl, Function.update_self file _ _⟩
  · exact h _ rfl fun h => absurd h done

theorem readBytes_spec {size : Nat} {Q : EfiStatus × List Byte → Efi → Prop}
    (h : ∀ t, t.calls = s.calls ++ [(.read file size, fw.status s.calls.length)] → t.held = s.held →
      Q (fw.status s.calls.length,
        if fw.status s.calls.length = EFI_SUCCESS then
          ((fw.volume file.name).drop (s.position file)).take size
        else []) t) :
    wp (readBytes fw file size) E Q s := by
  rw [readBytes, wp_bind]
  show wp (if fw.status s.calls.length = EFI_SUCCESS then _ else _) E Q _
  split_ifs at h ⊢
  · exact h _ rfl rfl
  · exact h _ rfl rfl

theorem read_spec {size buffer : Nat} {Q : EfiStatus → Efi → Prop}
    (h : ∀ t, t.calls = s.calls ++ [(.read file size, fw.status s.calls.length)] →
      (fw.status s.calls.length = EFI_SUCCESS → t.held = s.held.copy buffer
        (((fw.volume file.name).drop (s.position file)).take size)) →
      Q (fw.status s.calls.length) t) :
    wp (read fw file size buffer) E Q s := by
  rw [read, wp_bind]
  apply readBytes_spec
  intro t calls held
  refine h _ calls fun done => ?_
  rw [← held, if_pos done]
  rfl

theorem getMemoryMapInto_spec {mapSize : Nat} {memoryMap : Option Nat}
    {Q : EfiStatus × MapInfo → Efi → Prop}
    (h : ∀ t, t.calls = s.calls ++ [(.getMemoryMap mapSize memoryMap, fw.status s.calls.length)] →
      (fw.status s.calls.length = EFI_SUCCESS → t.mem = memoryMap.elim s.mem fun a =>
        s.mem.copy a (fw.memoryMap s.calls.length)) →
      Q (fw.status s.calls.length, ⟨(fw.memoryMap s.calls.length).length,
        fw.mapKey s.calls.length, fw.descriptorSize s.calls.length⟩) t) :
    wp (getMemoryMapInto fw mapSize memoryMap) E Q s := by
  rw [getMemoryMapInto, wp_bind, wp_get, wp_bind]
  show wp (if fw.status s.calls.length = EFI_SUCCESS then _ else _) E Q _
  split_ifs with done
  · exact h _ rfl fun _ => rfl
  · exact h _ rfl fun h => absurd h done

/-- A message is no call, and changes nothing that is held. -/
theorem report_spec {str : String} {status : EfiStatus} {Q : Unit → Efi → Prop}
    (h : ∀ t, t.calls = s.calls → t.held = s.held → Q () t) : wp (report str status) E Q s := by
  unfold report
  split_ifs
  · exact h _ rfl rfl
  · exact h _ rfl rfl

theorem wp_deref {α β : Type} {a : α} {f : α → Boot β} {Q : β → Efi → Prop} :
    wp (deref (some a) >>= f) E Q s ↔ wp (f a) E Q s :=
  Iff.rfl

end PrintOS.Bootloader
