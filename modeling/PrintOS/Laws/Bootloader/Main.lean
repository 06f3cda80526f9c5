import PrintOS.Bootloader.Main
import PrintOS.Laws.Bootloader.Efi

/-!
# Failures of the firmware

The bootloader should follow no pointer that a failed call left null, and it should jump to the
kernel only when every call got the status that it is documented to succeed with (`Sound`).

`Checked` is the law that each function has to keep for that: as long as every call succeeded it
follows no null pointer, and it reports a failure unless every call succeeded. All of them keep it
but one. `get_memory_data` only prints a message when it gets no memory for its structure, and
writes to the structure if the map is then got without a failure.
-/

namespace PrintOS.Bootloader

open Program
open ByteMemory (Mem Byte)

variable {fw : Firmware} {α β : Type}

/-! ## What it means to check -/

/-- Every call so far succeeded. -/
def AllSucceeded (s : Efi) : Prop := ∀ c ∈ s.calls, c.2 = c.1.documented

/-- From a state where every call succeeded, the program follows no null pointer, and where its
result is fine it is `Good` and every call still succeeded. -/
def Checked (x : Boot α) (Fine Good : α → Prop) : Prop :=
  ∀ s, AllSucceeded s → wp x (· ≠ .nullDeref) (fun a t => Fine a → Good a ∧ AllSucceeded t) s

/-- From any state, the program follows no null pointer and its result is not fine. -/
def GivesUp (x : Boot α) (Fine : α → Prop) : Prop :=
  ∀ s, wp x (· ≠ .nullDeref) (fun a _ => ¬ Fine a) s

/-- The status is that of a success. -/
def Done (r : EfiStatus × α) : Prop := r.1 = EFI_SUCCESS

/-- The pointer is not null. -/
def Given (r : EfiStatus × Option α) : Prop := r.2.isSome = true

section Rules

variable {x : Boot α} {f : α → Boot β} {Fine Good : α → Prop} {Fine' Good' : β → Prop}

theorem checked_pure {a : α} (h : Fine a → Good a) : Checked (pure a) Fine Good :=
  fun _ all fine => ⟨h fine, all⟩

theorem givesUp_pure {a : α} (h : ¬ Fine a) : GivesUp (pure a) Fine := fun _ => h

/-- A step is followed by one that checks it, and gives up where the step was not fine. -/
theorem Checked.bind (first : Checked x Fine Good)
    (next : ∀ a, Fine a → Good a → Checked (f a) Fine' Good')
    (failed : ∀ a, ¬ Fine a → GivesUp (f a) Fine') : Checked (x >>= f) Fine' Good' := by
  intro s all
  rw [wp_bind]
  apply wp_mono (first s all)
  intro a t h
  by_cases fine : Fine a
  · obtain ⟨good, all'⟩ := h fine
    exact next a fine good t all'
  · apply wp_mono (failed a fine t)
    intro b _ notFine fine'
    exact absurd fine' notFine

/-- A change of the state that is no call. -/
theorem checked_modify {g : Efi → Efi} {y : Unit → Boot α} (h : Checked (y ()) Fine Good)
    (silent : ∀ s, (g s).calls = s.calls) : Checked (modify g >>= y) Fine Good := by
  intro s all
  have all' : AllSucceeded (g s) := by
    rw [AllSucceeded, silent s]
    exact all
  exact h (g s) all'

theorem givesUp_modify {g : Efi → Efi} {y : Unit → Boot α} (h : GivesUp (y ()) Fine) :
    GivesUp (modify g >>= y) Fine :=
  fun s => h (g s)

theorem checked_print {text : String} {y : Unit → Boot α} (h : Checked (y ()) Fine Good) :
    Checked (print text >>= y) Fine Good := by
  apply checked_modify h
  intro s
  rfl

theorem givesUp_print {text : String} {y : Unit → Boot α} (h : GivesUp (y ()) Fine) :
    GivesUp (print text >>= y) Fine :=
  givesUp_modify h

theorem checked_report {str : String} {status : EfiStatus} {y : Unit → Boot α}
    (h : Checked (y ()) Fine Good) : Checked (report str status >>= y) Fine Good := by
  unfold report
  split_ifs
  · exact checked_print h
  · exact h

theorem givesUp_report {str : String} {status : EfiStatus} {y : Unit → Boot α}
    (h : GivesUp (y ()) Fine) : GivesUp (report str status >>= y) Fine := by
  unfold report
  split_ifs
  · exact givesUp_print h
  · exact h

/-- A message, and then a result that is not fine. -/
theorem givesUp_err {str : String} {status : EfiStatus} {a : α} (h : ¬ Fine a) :
    GivesUp (printEfiErr str status >>= fun _ => pure a) Fine :=
  fun _ => h

/-- The test of a status that was the expected one. -/
theorem checked_go_on {status expected : EfiStatus} {y : Boot α} (h : status = expected)
    (go : Checked x Fine Good) : Checked (if status ≠ expected then y else x) Fine Good := by
  rw [if_neg (not_not.mpr h)]
  exact go

/-- The test of a status that was not the expected one. -/
theorem givesUp_here {status expected : EfiStatus} {y : Boot α} (h : status ≠ expected)
    (here : GivesUp x Fine) : GivesUp (if status ≠ expected then x else y) Fine := by
  rw [if_pos h]
  exact here

/-- A step whose failure is only told of, in a message, and left to the caller. -/
theorem Checked.reported (first : Checked x Fine Good) {b : α → β}
    (h : ∀ a, ∃ str status, f a = report str status >>= fun _ => pure (b a))
    (fine : ∀ a, Fine' (b a) → Fine a) (good : ∀ a, Good a → Good' (b a)) :
    Checked (x >>= f) Fine' Good' := by
  refine first.bind ?_ ?_
  · intro a _ isGood
    obtain ⟨str, status, hf⟩ := h a
    rw [hf]
    exact checked_report (checked_pure fun _ => good a isGood)
  · intro a failed
    obtain ⟨str, status, hf⟩ := h a
    rw [hf]
    exact givesUp_report (givesUp_pure fun isFine => failed (fine a isFine))

/-- A pointer that is not null may be followed. -/
theorem checked_deref {ptr : Option α} {y : α → Boot β} (given : ptr.isSome = true)
    (h : ∀ a, Checked (y a) Fine' Good') : Checked (deref ptr >>= y) Fine' Good' := by
  cases ptr with
  | none => cases given
  | some a => exact h a

theorem checked_get {y : Efi → Boot α} (h : ∀ s, Checked (y s) Fine Good) :
    Checked (get >>= y) Fine Good :=
  fun s all => h s s all

end Rules

/-! ## Services -/

theorem AllSucceeded.snoc {s : Efi} (all : AllSucceeded s) {c : Call} {status : EfiStatus}
    (h : status = c.documented) : ∀ call ∈ s.calls ++ [(c, status)], call.2 = call.1.documented := by
  intro call mem
  rcases List.mem_append.mp mem with mem | mem
  · exact all call mem
  · rw [List.mem_singleton.mp mem]
    exact h

theorem call_checked {c : Call} {status : EfiStatus} (h : c.documented = status) :
    Checked (call fw c) (· = status) fun _ => True :=
  fun _ all fine => ⟨trivial, all.snoc (fine.trans h.symm)⟩

/-- A call that answers with a status and something more, after a change of the state where it
succeeded. -/
theorem answer_checked {c : Call} {g : Efi → Efi} {done failed : EfiStatus → α}
    {Fine Good : α → Prop} (h : c.documented = EFI_SUCCESS)
    (silent : ∀ s, (g s).calls = s.calls) (good : ∀ status, Good (done status))
    (notFine : ∀ status, status ≠ EFI_SUCCESS → ¬ Fine (failed status)) :
    Checked (call fw c >>= fun status =>
      if status = EFI_SUCCESS then modify g >>= fun _ => pure (done status)
      else pure (failed status)) Fine Good := by
  refine (call_checked h).bind ?_ ?_
  · intro status fine _
    rw [if_pos fine]
    exact checked_modify (checked_pure fun _ => good status) silent
  · intro status hfailed
    rw [if_neg hfailed]
    exact givesUp_pure (notFine status hfailed)

theorem callInterface_checked {c : Call} (h : c.documented = EFI_SUCCESS) :
    Checked (callInterface fw c) Done Given := by
  refine (call_checked h).bind ?_ ?_
  · intro status fine _
    apply checked_pure
    intro _
    rw [Given, if_pos fine]
    rfl
  · intro status failed
    exact givesUp_pure failed

theorem openFile_checked (fileName : String) : Checked (openFile fw fileName) Done Given := by
  apply answer_checked
  · rfl
  · exact fun _ => rfl
  · exact fun _ => rfl
  · exact fun _ failed => failed

theorem allocatePool_checked (size : Nat) : Checked (allocatePool fw size) Done Given := by
  apply checked_get
  intro s
  apply answer_checked
  · rfl
  · exact fun _ => rfl
  · exact fun _ => rfl
  · exact fun _ failed => failed

theorem setPosition_checked (file : EfiFile) (position : Nat) :
    Checked (setPosition fw file position) (· = EFI_SUCCESS) fun _ => True := by
  apply answer_checked
  · rfl
  · exact fun _ => rfl
  · exact fun _ => trivial
  · exact fun _ failed => failed

theorem allocatePages_checked (pages address : Nat) :
    Checked (allocatePages fw pages address) (· = EFI_SUCCESS) fun _ => True := by
  apply answer_checked
  · rfl
  · exact fun _ => rfl
  · exact fun _ => trivial
  · exact fun _ failed => failed

theorem readBytes_checked (file : EfiFile) (bufferSize : Nat) :
    Checked (readBytes fw file bufferSize) Done fun _ => True := by
  have called : Checked (call fw (.read file bufferSize)) (· = EFI_SUCCESS) fun _ => True :=
    call_checked rfl
  refine called.bind ?_ ?_
  · intro status fine _
    rw [if_pos fine]
    apply checked_get
    intro s
    exact checked_modify (checked_pure fun _ => trivial) fun _ => rfl
  · intro status failed
    rw [if_neg failed]
    exact givesUp_pure failed

theorem read_checked (file : EfiFile) (bufferSize buffer : Nat) :
    Checked (read fw file bufferSize buffer) (· = EFI_SUCCESS) fun _ => True := by
  refine (readBytes_checked file bufferSize).bind ?_ ?_
  · intro r _ _
    exact checked_modify (checked_pure fun _ => trivial) fun _ => rfl
  · intro r failed
    exact givesUp_modify (givesUp_pure failed)

/-! ## Files -/

theorem getImage_checked : Checked (getImage fw) Done Given := by
  apply (callInterface_checked rfl).reported
  · exact fun _ => ⟨_, _, rfl⟩
  · exact fun _ done => done
  · exact fun _ given => given

theorem getRootFs_checked {loadedImage : Option Unit} (given : loadedImage.isSome = true) :
    Checked (getRootFs fw loadedImage) Done Given := by
  apply checked_deref given
  intro _
  apply (callInterface_checked rfl).reported
  · exact fun _ => ⟨_, _, rfl⟩
  · exact fun _ done => done
  · exact fun _ given => given

theorem getRootDir_checked {rootFs : Option Unit} (given : rootFs.isSome = true) :
    Checked (getRootDir fw rootFs) Done Given := by
  apply checked_deref given
  intro _
  apply (callInterface_checked rfl).reported
  · exact fun _ => ⟨_, _, rfl⟩
  · exact fun _ done => done
  · exact fun _ given => given

theorem getDir_checked {rootFs : Option Unit} (given : rootFs.isSome = true)
    (dir : Option Unit) : Checked (getDir fw rootFs dir) Done Given := by
  unfold getDir
  split_ifs with hnone
  · exact getRootDir_checked given
  · apply checked_pure
    intro _
    rw [Given, Option.isSome_iff_ne_none]
    exact fun h => hnone (Option.isNone_iff_eq_none.mpr h)

theorem getFile_checked {dir : Option Unit} (given : dir.isSome = true) (fileName : String) :
    Checked (getFile fw dir fileName) Done Given := by
  apply checked_deref given
  intro _
  apply (openFile_checked fileName).reported
  · exact fun _ => ⟨_, _, rfl⟩
  · exact fun _ done => done
  · exact fun _ given => given

/-- The pointer that a function returns is fine where it is not null. -/
def NotNull (ptr : Option α) : Prop := ptr.isSome = true

theorem not_notNull_none : ¬ NotNull (none : Option α) := by
  intro h
  cases h

theorem loadFile_checked (dir : Option Unit) (fileName : String) :
    Checked (loadFile fw dir fileName) NotNull fun _ => True := by
  refine getImage_checked.bind ?_ fun r failed => givesUp_here failed (givesUp_pure not_notNull_none)
  intro image done given
  apply checked_go_on done
  refine (getRootFs_checked given).bind ?_
    fun r failed => givesUp_here failed (givesUp_pure not_notNull_none)
  intro rootFs done given
  apply checked_go_on done
  refine (getDir_checked given dir).bind ?_
    fun r failed => givesUp_here failed (givesUp_pure not_notNull_none)
  intro dir done given
  apply checked_go_on done
  refine (getFile_checked given fileName).bind ?_
    fun r failed => givesUp_here failed (givesUp_pure not_notNull_none)
  intro file done given
  apply checked_go_on done
  exact checked_pure fun _ => trivial

/-! ## The kernel -/

section Kernel

variable {file : Option EfiFile}

theorem getElfHeader_checked (opened : file.isSome = true) :
    Checked (getElfHeader fw file) Done fun _ => True := by
  apply checked_deref opened
  intro file
  refine (setPosition_checked file 0).bind ?_
    fun r failed => givesUp_here failed (givesUp_err failed)
  intro status done _
  apply checked_go_on done
  apply (readBytes_checked file EHDR_SZ).reported
  · exact fun _ => ⟨_, _, rfl⟩
  · exact fun _ done => done
  · exact fun _ _ => trivial

theorem getElfPHdrs_checked (opened : file.isSome = true) (eHdr : Elf64Ehdr) :
    Checked (getElfPHdrs fw file eHdr) Done Given := by
  refine (allocatePool_checked (allPHdrsSz eHdr)).bind ?_
    fun r failed => givesUp_here failed (givesUp_err failed)
  intro pHdrs done given
  apply checked_go_on done
  apply checked_deref opened
  intro file
  refine (setPosition_checked file eHdr.ePhoff).bind ?_
    fun r failed => givesUp_here failed (givesUp_err failed)
  intro status done _
  apply checked_go_on done
  apply checked_deref given
  intro buffer
  refine (read_checked file (allPHdrsSz eHdr) buffer).bind ?_
    fun r failed => givesUp_here failed (givesUp_err failed)
  intro status done _
  apply checked_go_on done
  exact checked_pure fun _ => given

theorem loadElfSegmentByPHdr_checked (opened : file.isSome = true) (pHdr : Elf64Phdr) :
    Checked (loadElfSegmentByPHdr fw file pHdr) (· = EFI_SUCCESS) fun _ => True := by
  refine (allocatePages_checked _ _).bind ?_
    fun r failed => givesUp_here failed (givesUp_err failed)
  intro status done _
  apply checked_go_on done
  apply checked_deref opened
  intro file
  refine (setPosition_checked file pHdr.pOffset).bind ?_
    fun r failed => givesUp_here failed (givesUp_err failed)
  intro status done _
  apply checked_go_on done
  apply (read_checked file pHdr.pFilesz pHdr.pPaddr).reported
  · exact fun _ => ⟨_, _, rfl⟩
  · exact fun _ done => done
  · exact fun _ _ => trivial

theorem loadPHdr_checked (opened : file.isSome = true) (pHdr : Elf64Phdr) :
    Checked (loadPHdr fw file pHdr) (· = EFI_SUCCESS) fun _ => True := by
  unfold loadPHdr
  split_ifs
  · exact loadElfSegmentByPHdr_checked opened pHdr
  · exact checked_pure fun _ => trivial

theorem loadSegments_checked (opened : file.isSome = true) (pHdrSize left : Nat)
    {pHdr : Option Nat} (given : pHdr.isSome = true) :
    Checked (loadSegments fw file pHdrSize left pHdr) (· = true) fun _ => True := by
  induction left generalizing pHdr with
  | zero => exact checked_pure fun _ => trivial
  | succ left ih =>
    apply checked_deref given
    intro addr
    apply checked_get
    intro s
    refine (loadPHdr_checked opened _).bind ?_
      fun r failed => givesUp_here failed (givesUp_pure Bool.false_ne_true)
    intro status done _
    apply checked_go_on done
    apply ih
    rw [getNextPHdr, Option.isSome_map]
    exact given

theorem loadKernelIntoMemory_checked (opened : file.isSome = true) :
    Checked (loadKernelIntoMemory fw file) NotNull fun _ => True := by
  refine (getElfHeader_checked opened).bind ?_
    fun r failed => givesUp_here failed (givesUp_pure not_notNull_none)
  intro eHdr done _
  apply checked_go_on done
  apply checked_get
  intro s
  by_cases rejected : verifyKernelElfHeader s.mem eHdr.2 = true
  · rw [if_pos rejected]
    exact checked_print (checked_pure fun h => absurd h not_notNull_none)
  rw [if_neg rejected]
  refine (getElfPHdrs_checked opened eHdr.2).bind ?_
    fun r failed => givesUp_here failed (givesUp_pure not_notNull_none)
  intro pHdrs done given
  apply checked_go_on done
  refine (loadSegments_checked opened _ _ given).bind ?_ ?_
  · intro all done _
    rw [if_pos done]
    exact checked_pure fun _ => trivial
  · intro all failed
    rw [if_neg failed]
    exact givesUp_pure not_notNull_none

end Kernel

/-! ## The font and the framebuffer -/

section Font

variable {file : Option EfiFile}

theorem getPsfHeader_checked (opened : file.isSome = true) :
    Checked (getPsfHeader fw file) Done Given := by
  refine (allocatePool_checked PSF1_HEADER_SZ).bind ?_
    fun r failed => givesUp_here failed (givesUp_err failed)
  intro psfHeader done given
  apply checked_go_on done
  apply checked_deref opened
  intro file
  apply checked_deref given
  intro buffer
  apply (read_checked file PSF1_HEADER_SZ buffer).reported
  · exact fun _ => ⟨_, _, rfl⟩
  · exact fun _ done => done
  · exact fun _ _ => given

theorem getPsfGlyphs_checked (opened : file.isSome = true) (glyphsBufSz : Nat) :
    Checked (getPsfGlyphs fw file glyphsBufSz) Done Given := by
  apply checked_deref opened
  intro file
  refine (setPosition_checked file PSF1_HEADER_SZ).bind ?_
    fun r failed => givesUp_here failed (givesUp_err failed)
  intro status done _
  apply checked_go_on done
  refine (allocatePool_checked glyphsBufSz).bind ?_
    fun r failed => givesUp_here failed (givesUp_err failed)
  intro glyphsBuf done given
  apply checked_go_on done
  apply checked_deref given
  intro buffer
  apply (read_checked file glyphsBufSz buffer).reported
  · exact fun _ => ⟨_, _, rfl⟩
  · exact fun _ done => done
  · exact fun _ _ => given

end Font

theorem loadPsfFont_checked (dir : Option Unit) (path : String) :
    Checked (loadPsfFont fw dir path) NotNull fun _ => True := by
  refine (loadFile_checked dir path).bind ?_ ?_
  · intro psfFile opened _
    have hsome : ¬ psfFile.isNone = true := by
      rw [Option.isNone_iff_eq_none]
      rintro rfl
      exact not_notNull_none opened
    rw [if_neg hsome]
    refine (getPsfHeader_checked opened).bind ?_
      fun r failed => givesUp_here failed (givesUp_pure not_notNull_none)
    intro psfHeader done given
    apply checked_go_on done
    apply checked_deref given
    intro addr
    apply checked_get
    intro s
    by_cases rejected : verifyPsfHeader (Psf1Header.ofMem s.mem addr) = true
    · rw [if_pos rejected]
      exact checked_print (checked_pure fun h => absurd h not_notNull_none)
    rw [if_neg rejected]
    refine (getPsfGlyphs_checked opened _).bind ?_
      fun r failed => givesUp_here failed (givesUp_pure not_notNull_none)
    intro glyphsBuf done _
    apply checked_go_on done
    refine (allocatePool_checked PSF1_FONT_SZ).bind ?_
      fun r failed => givesUp_here failed (givesUp_err not_notNull_none)
    intro psfFont done given
    apply checked_go_on done
    apply checked_deref given
    intro _
    exact checked_pure fun _ => trivial
  · intro psfFile failed
    have hnone : psfFile.isNone = true := by
      cases psfFile with
      | none => rfl
      | some file => exact absurd rfl failed
    rw [if_pos hnone]
    exact givesUp_print (givesUp_pure not_notNull_none)

theorem locateGop_checked : Checked (locateGop fw) Done Given := by
  apply (callInterface_checked rfl).reported
  · exact fun _ => ⟨_, _, rfl⟩
  · exact fun _ done => done
  · exact fun _ given => given

theorem getFramebuffer_checked : Checked (getFramebuffer fw) NotNull fun _ => True := by
  refine locateGop_checked.bind ?_
    fun r failed => givesUp_here failed (givesUp_pure not_notNull_none)
  intro gop done located
  apply checked_go_on done
  refine (allocatePool_checked FRAMEBUFFER_SZ).bind ?_
    fun r failed => givesUp_here failed (givesUp_err not_notNull_none)
  intro framebuffer done given
  apply checked_go_on done
  apply checked_deref given
  intro _
  apply checked_deref located
  intro _
  exact checked_pure fun _ => trivial

theorem allocateDoubleFramebuffer_checked (size : Nat) :
    Checked (allocateDoubleFramebuffer fw size) NotNull fun _ => True := by
  refine (allocatePool_checked size).bind ?_
    fun r failed => givesUp_here failed (givesUp_err not_notNull_none)
  intro buffer done _
  apply checked_go_on done
  exact checked_pure fun _ => trivial

/-! ## Up to the start of the kernel -/

/-- A step of `efi_main` that gets a pointer. -/
theorem orGiveUp_checked {step : Boot (Option α)} {err ok : String} {rest : α → Boot (Option β)}
    (hstep : Checked step NotNull fun _ => True)
    (hrest : ∀ a, Checked (rest a) NotNull fun _ => True) :
    Checked (orGiveUp step err ok rest) NotNull fun _ => True := by
  refine hstep.bind ?_ ?_
  · intro ptr notNull _
    cases ptr with
    | none => exact absurd notNull not_notNull_none
    | some a => exact checked_print (hrest a)
  · intro ptr null
    cases ptr with
    | none => exact givesUp_print (givesUp_pure not_notNull_none)
    | some a => exact absurd rfl null

theorem load_checked : Checked (load fw) NotNull fun _ => True := by
  apply checked_print
  apply orGiveUp_checked (loadFile_checked none _)
  intro kernelFile
  apply orGiveUp_checked (loadKernelIntoMemory_checked rfl)
  intro kernelAddr
  apply orGiveUp_checked (loadPsfFont_checked none _)
  intro psfFont
  apply orGiveUp_checked getFramebuffer_checked
  intro framebuffer
  apply orGiveUp_checked (allocateDoubleFramebuffer_checked _)
  intro doubleBuffer
  apply orGiveUp_checked (checked_pure fun _ => trivial)
  intro acpiRsdp
  exact checked_pure fun _ => trivial

/-- The stack is tested by its pointer, which is null where the call failed. -/
theorem allocateMemoryForKernelStack_checked :
    Checked (allocateMemoryForKernelStack fw) NotNull fun _ => True := by
  have pool : Checked (allocatePool fw KERNEL_STACK_SIZE) Given fun _ => True := by
    apply checked_get
    intro s
    apply answer_checked
    · rfl
    · exact fun _ => rfl
    · exact fun _ => trivial
    · exact fun _ _ => not_notNull_none
  apply pool.reported
  · exact fun _ => ⟨_, _, rfl⟩
  · exact fun _ done => done
  · exact fun _ _ => trivial

/-! ## The memory map -/

/-- The three calls of `get_memory_map`, from call `n` on, succeed. -/
def MapGot (fw : Firmware) (n : Nat) : Prop :=
  fw.status n = EFI_BUFFER_TOO_SMALL ∧ fw.status (n + 1) = EFI_SUCCESS ∧
    fw.status (n + 2) = EFI_SUCCESS

/-- Of the calls of `get_memory_data`, from call `n` on, the first fails and the others succeed. -/
def MapAlone (fw : Firmware) (n : Nat) : Prop := fw.status n ≠ EFI_SUCCESS ∧ MapGot fw (n + 1)

instance (fw : Firmware) (n : Nat) : Decidable (MapGot fw n) :=
  inferInstanceAs (Decidable (_ ∧ _))

instance (fw : Firmware) (n : Nat) : Decidable (MapAlone fw n) :=
  inferInstanceAs (Decidable (_ ∧ _))

theorem getMemoryMapSize_checked :
    Checked (getMemoryMapInto fw 0 none) (fun r => r.1 = EFI_BUFFER_TOO_SMALL) fun _ => True := by
  apply checked_get
  intro s
  have called : Checked (call fw (.getMemoryMap 0 none)) (· = EFI_BUFFER_TOO_SMALL) fun _ => True :=
    call_checked rfl
  refine called.bind ?_ ?_
  · intro status fine _
    have hne : status ≠ EFI_SUCCESS := by
      rw [fine]
      decide
    rw [if_neg hne]
    exact checked_pure fun _ => trivial
  · intro status failed
    split_ifs
    · exact givesUp_modify (givesUp_pure failed)
    · exact givesUp_pure failed

theorem getMemoryMapInto_checked (mapSize buffer : Nat) :
    Checked (getMemoryMapInto fw mapSize (some buffer)) Done fun _ => True := by
  apply checked_get
  intro s
  apply answer_checked
  · rfl
  · exact fun _ => rfl
  · exact fun _ => trivial
  · exact fun _ failed => failed

theorem aborted_ne_success : EFI_ABORTED ≠ EFI_SUCCESS := by decide

theorem getMemoryMap_checked : Checked (getMemoryMap fw) Done fun _ => True := by
  refine getMemoryMapSize_checked.bind ?_
    fun r failed => givesUp_here failed (givesUp_err aborted_ne_success)
  intro size fine _
  apply checked_go_on fine
  refine (allocatePool_checked _).bind ?_
    fun r failed => givesUp_here failed (givesUp_err failed)
  rintro ⟨status, mmap⟩ done given
  obtain ⟨buffer, rfl⟩ := Option.isSome_iff_exists.mp given
  apply checked_go_on done
  apply (getMemoryMapInto_checked _ buffer).reported
  · exact fun _ => ⟨_, _, rfl⟩
  · exact fun _ done => done
  · exact fun _ _ => trivial

section Exact

variable {E : Stop → Prop} {s : Efi}

/-- `get_memory_map` succeeds exactly when its calls do. -/
theorem getMemoryMap_spec :
    wp (getMemoryMap fw) E (fun r _ => r.1 = EFI_SUCCESS ↔ MapGot fw s.calls.length) s := by
  rw [getMemoryMap, wp_bind]
  apply getMemoryMapInto_spec
  intro t hcalls _
  have ht : t.calls.length = s.calls.length + 1 := by
    rw [hcalls]
    exact List.length_append
  rw [wp_ite]
  refine ⟨fun failed => iff_of_false aborted_ne_success fun got => failed got.1, fun sized => ?_⟩
  rw [wp_bind]
  apply allocatePool_spec
  intro u hu _
  have hlength : u.calls.length = t.calls.length + 1 := by
    rw [hu]
    exact List.length_append
  rw [wp_ite, ht]
  refine ⟨fun failed => iff_of_false failed fun got => failed got.2.1, fun given => ?_⟩
  rw [wp_bind]
  apply getMemoryMapInto_spec
  intro v _ _
  rw [wp_bind]
  apply report_spec
  intro w _ _
  rw [hlength, ht]
  exact ⟨fun done => ⟨not_not.mp sized, not_not.mp given, done⟩, fun got => got.2.2⟩

/-- Where the structure was got, `get_memory_data` checks what is left. -/
theorem getMemoryData_of_given (all : AllSucceeded s)
    (given : fw.status s.calls.length = EFI_SUCCESS) :
    wp (getMemoryData fw) (· ≠ .nullDeref) (fun r t => NotNull r → AllSucceeded t) s := by
  rw [getMemoryData, wp_bind]
  apply allocatePool_spec
  intro t ht _
  have all' : AllSucceeded t := by
    rw [AllSucceeded, ht]
    exact all.snoc given
  rw [if_pos given]
  refine wp_mono ((checked_report ?_ : Checked _ NotNull fun _ => True) t all')
    fun r u h notNull => (h notNull).2
  refine getMemoryMap_checked.bind ?_
    fun r failed => givesUp_here failed (givesUp_pure not_notNull_none)
  intro mmap done _
  apply checked_go_on done
  apply checked_deref rfl
  intro _ u allSucceeded
  rw [wp_ite]
  exact ⟨fun _ => Stop.noConfusion, fun _ _ => ⟨trivial, allSucceeded⟩⟩

/-- Where it was not, the pointer is followed exactly when the map was got. -/
theorem getMemoryData_of_failed (failed : fw.status s.calls.length ≠ EFI_SUCCESS)
    (stopped : MapGot fw (s.calls.length + 1) → E .nullDeref)
    {Q : Option (MemoryData × Nat) → Efi → Prop}
    (ended : ¬ MapGot fw (s.calls.length + 1) → ∀ t, Q none t) :
    wp (getMemoryData fw) E Q s := by
  rw [getMemoryData, wp_bind]
  apply allocatePool_spec
  intro t ht _
  rw [if_neg failed, wp_bind]
  apply report_spec
  intro u hu _
  rw [wp_bind]
  apply wp_mono getMemoryMap_spec
  intro r v hgot
  rw [hu, ht, List.length_append] at hgot
  rw [wp_ite]
  refine ⟨fun failed => ended (fun got => failed (hgot.mpr got)) v, fun done => ?_⟩
  exact stopped (hgot.mp (not_not.mp done))

end Exact

/-! ## The whole bootloader -/

/-- The bootloader follows no null pointer, and it jumps to the kernel only when every call
succeeded. -/
def Sound (fw : Firmware) (s : Efi) : Prop :=
  efiMain fw s ≠ .error .nullDeref ∧
    ∀ kernelAddr data t, efiMain fw s = .ok (.jumped kernelAddr data, t) → AllSucceeded t

/-- The bootloader comes to `get_memory_data`, in the state `u`. -/
def AtMemoryData (fw : Firmware) (s u : Efi) : Prop :=
  ∃ loaded t stack, load fw s = .ok (some loaded, t) ∧
    allocateMemoryForKernelStack fw
      { t with printed := t.printed ++ ["[*] Starting kernel... \n\r"] } = .ok (some stack, u)

section Whole

variable {E : Stop → Prop} {s : Efi}

theorem sound_of_wp
    (h : wp (efiMain fw) (· ≠ .nullDeref)
      (fun r t => (∃ kernelAddr data, r = .jumped kernelAddr data) → AllSucceeded t) s) :
    Sound fw s := by
  refine ⟨fun stopped => (wp_of_error stopped).mp h rfl, ?_⟩
  intro kernelAddr data t ended
  exact (wp_of_ok ended).mp h ⟨kernelAddr, data, rfl⟩

/-- Once the stack was got, `start_kernel` goes on with the memory map. -/
theorem startKernel_of_stack {loaded : Loaded} {stack : Nat} {u : Efi}
    (hstack : allocateMemoryForKernelStack fw s = .ok (some stack, u))
    {Q : Option (Nat × BootloaderData) → Efi → Prop}
    (h : wp (getMemoryData fw) E (fun r v =>
      match r with
      | none => ∀ w, Q none w
      | some (_, mmapKey) => wp (call fw (.exitBootServices mmapKey)) E (fun status w =>
          if status = EFI_SUCCESS then ∀ jump, Q (some jump) w else ∀ w, Q none w) v) u) :
    wp (startKernel fw loaded) E Q s := by
  rw [startKernel, wp_bind, wp_of_ok hstack]
  rw [if_neg (by simp), wp_bind]
  apply wp_mono h
  intro r v hr
  cases r with
  | none => exact hr _
  | some data =>
    rw [wp_bind]
    apply wp_mono hr
    intro status w hw
    by_cases left : status = EFI_SUCCESS
    · rw [if_neg (not_not.mpr left)]
      rw [if_pos left] at hw
      exact hw _
    · rw [if_pos left]
      rw [if_neg left] at hw
      exact hw _

theorem startKernel_sound {loaded : Loaded} (all : AllSucceeded s)
    (meets : ∀ stack u, allocateMemoryForKernelStack fw s = .ok (some stack, u) →
      ¬ MapAlone fw u.calls.length) :
    wp (startKernel fw loaded) (· ≠ .nullDeref) (fun r v => NotNull r → AllSucceeded v) s := by
  have checked := @allocateMemoryForKernelStack_checked fw s all
  cases hstack : allocateMemoryForKernelStack fw s with
  | error e =>
    rw [startKernel, wp_bind, wp_of_error hstack]
    exact (wp_of_error hstack).mp checked
  | ok r =>
    obtain ⟨stack, u⟩ := r
    cases stack with
    | none =>
      rw [startKernel, wp_bind, wp_of_ok hstack]
      exact fun notNull => absurd notNull not_notNull_none
    | some stack =>
      obtain ⟨_, all'⟩ := (wp_of_ok hstack).mp checked rfl
      apply startKernel_of_stack hstack
      by_cases given : fw.status u.calls.length = EFI_SUCCESS
      · apply wp_mono (getMemoryData_of_given all' given)
        intro r v got
        cases r with
        | none => exact fun w notNull => absurd notNull not_notNull_none
        | some data =>
          apply wp_mono (call_checked rfl v (got rfl))
          intro status w left
          split_ifs with done
          · exact fun _ _ => (left done).2
          · exact fun w notNull => absurd notNull not_notNull_none
      · apply getMemoryData_of_failed given
        · exact fun got => absurd ⟨given, got⟩ (meets stack u hstack)
        · exact fun _ _ w notNull => absurd notNull not_notNull_none

/-- The structure is written to through a null pointer. -/
theorem startKernel_stops {loaded : Loaded} {stack : Nat} {u : Efi}
    (hstack : allocateMemoryForKernelStack fw s = .ok (some stack, u))
    (alone : MapAlone fw u.calls.length) :
    wp (startKernel fw loaded) (· = .nullDeref) (fun _ _ => False) s := by
  apply startKernel_of_stack hstack
  apply getMemoryData_of_failed alone.1
  · exact fun _ => rfl
  · exact fun failed => absurd alone.2 failed

/-- Once everything is loaded, `efi_main` starts the kernel. -/
theorem efiMain_of_load {loaded : Loaded} {t : Efi} (hload : load fw s = .ok (some loaded, t))
    {Q : Ended → Efi → Prop}
    (h : wp (startKernel fw loaded) E (fun r v =>
      match r with
      | none => Q (.returned EFI_SUCCESS) v
      | some (kernelAddr, data) => Q (.jumped kernelAddr data) v)
      { t with printed := t.printed ++ ["[*] Starting kernel... \n\r"] }) :
    wp (efiMain fw) E Q s := by
  rw [efiMain, wp_bind, wp_of_ok hload]
  show wp (print _ >>= fun _ => startKernel fw loaded >>= _) E Q t
  rw [wp_bind]
  show wp (startKernel fw loaded >>= _) E Q _
  rw [wp_bind]
  apply wp_mono h
  intro r v hr
  cases r with
  | none => exact hr
  | some jump => exact hr

end Whole

/-- Whatever statuses the firmware gives, and whatever memory holds, the bootloader is sound exactly
when, if it comes to `get_memory_data`, it is not the case that the first call there fails and the
three after it succeed. -/
theorem sound_iff (fw : Firmware) (mem : Mem) :
    Sound fw (.start mem) ↔
      ∀ u, AtMemoryData fw (.start mem) u → ¬ MapAlone fw u.calls.length := by
  constructor
  · rintro ⟨follows, _⟩ u ⟨loaded, t, stack, hload, hstack⟩ alone
    have stops : wp (efiMain fw) (· = .nullDeref) (fun _ _ => False) (.start mem) :=
      efiMain_of_load hload (wp_mono (startKernel_stops hstack alone) fun _ _ h => h.elim)
    apply follows
    cases ended : efiMain fw (.start mem) with
    | error e => rw [(wp_of_error ended).mp stops]
    | ok r => exact ((wp_of_ok ended).mp stops).elim
  · intro meets
    have all : AllSucceeded (.start mem) := by
      intro c mem
      cases mem
    have checked := @load_checked fw (.start mem) all
    apply sound_of_wp
    cases hload : load fw (.start mem) with
    | error e =>
      rw [efiMain, wp_bind, wp_of_error hload]
      exact (wp_of_error hload).mp checked
    | ok r =>
      obtain ⟨loaded, t⟩ := r
      cases loaded with
      | none =>
        rw [efiMain, wp_bind, wp_of_ok hload]
        rintro ⟨kernelAddr, data, h⟩
        cases h
      | some loaded =>
        obtain ⟨_, all'⟩ := (wp_of_ok hload).mp checked rfl
        apply efiMain_of_load hload
        refine wp_mono (startKernel_sound all' ?_) ?_
        · intro stack u hstack
          exact meets u ⟨loaded, t, stack, hload, hstack⟩
        · intro r v sound
          cases r with
          | none =>
            rintro ⟨kernelAddr, data, h⟩
            cases h
          | some jump => exact fun _ => sound rfl

/-- A kernel without segments, which is entered at 0x100000. -/
def bareKernel : List Byte :=
  ELFMAG ++ [2, 1, 1] ++ .replicate 9 0 ++ [2, 0, 62, 0, 1, 0, 0, 0] ++
    [0, 0, 16, 0, 0, 0, 0, 0] ++ [64, 0, 0, 0, 0, 0, 0, 0] ++ .replicate 14 0 ++
    [56, 0, 0, 0, 0, 0, 0, 0, 0, 0]

/-- A font of 256 glyphs of 16 bytes, cut off after its header. -/
def bareFont : List Byte := [0x36, 0x04, 0, 16]

/-- A firmware with these two files, on which the bootloader makes 28 calls. -/
def bareFirmware (status : Nat → EfiStatus) : Firmware where
  status := status
  pool := fun n => 0x10000 * (n + 1)
  memoryMap := fun _ => .replicate 48 0
  mapKey := fun _ => 1
  descriptorSize := fun _ => 48
  volume := fun name => if name = "kernel.elf" then bareKernel else bareFont
  mode := ⟨0x80000000, 0x300000, 1024, 768, 1024⟩
  configurationTable := [⟨ACPI_TABLE_GUID, some 0xe0000⟩]
  stack := fun _ => 0

/-- Every call succeeds but the one for the memory of the structure, which is out of resources. -/
def outOfResources (n : Nat) : EfiStatus :=
  if n = 23 then efiError 9 else if n = 24 then EFI_BUFFER_TOO_SMALL else EFI_SUCCESS

theorem out_of_resources_unsound :
    ¬ Sound (bareFirmware outOfResources) (.start fun _ => 0) := by
  rintro ⟨follows, _⟩
  exact follows rfl

end PrintOS.Bootloader
