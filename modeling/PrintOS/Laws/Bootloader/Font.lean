import Mathlib.Data.List.Pairwise
import PrintOS.Bootloader.Main
import PrintOS.Console.ConsoleFont
import PrintOS.Laws.Bootloader.KernelLoader
import PrintOS.Laws.Framebuffer.Framebuffer

/-!
# The font, from the file to the rows of a character

A PSF1 file has the bytes `36 04`, a mode, the number of bytes of a glyph, and the glyphs: 512 of
them where bit 0 of the mode is set, else 256. The bootloader reads the header and the glyphs to
memory, and the console draws a character by the rows of its glyph there (`FontRight`).

What `load_psf_font` does is told by its calls of the firmware, all of which succeed or it returns
null, and by the header that it reads (`loadPsfFont_spec`). It takes the font unless the header
begins with `04 36`, it tests the mode for the value 1, and a glyph has 16 rows for the console
whatever the header says. So among the files that it takes, the font is right exactly for those that
none of the three matters for (`font_right_iff`).
-/

namespace PrintOS.Bootloader

open ByteMemory (Mem Byte)
open Program

variable {fw : Firmware} {E : Stop → Prop} {s : Efi} {dir : Option Unit} {path : String}

/-! ## Calls that succeed -/

/-- The next calls get the status of a success. -/
def Succeeds (fw : Firmware) (n count : Nat) : Prop :=
  ∀ i < count, fw.status (n + i) = EFI_SUCCESS

theorem succeeds_one {n : Nat} : Succeeds fw n 1 ↔ fw.status n = EFI_SUCCESS := by
  constructor
  · intro h
    exact h 0 Nat.one_pos
  · intro h i hi
    obtain rfl : i = 0 := by omega
    exact h

theorem succeeds_add {n k l : Nat} :
    Succeeds fw n (k + l) ↔ Succeeds fw n k ∧ Succeeds fw (n + k) l := by
  constructor
  · intro h
    refine ⟨fun i hi => h i (by omega), fun i hi => ?_⟩
    rw [Nat.add_assoc]
    exact h (k + i) (by omega)
  · rintro ⟨first, second⟩ i hi
    by_cases hk : i < k
    · exact first i hk
    · have hsecond := second (i - k) (by omega)
      rwa [Nat.add_assoc, Nat.add_sub_cancel' (by omega)] at hsecond

/-- After some calls, by their number, the memory that they left and the ranges they handed out. -/
structure Called (s t : Efi) (count : Nat) (mem : Mem) (new : List Range) : Prop where
  calls : t.calls.length = s.calls.length + count
  mem : t.mem = mem
  pools : t.pools = s.pools ++ new

theorem Called.trans {t u : Efi} {k l : Nat} {m m' : Mem} {new new' : List Range}
    (first : Called s t k m new) (second : Called t u l m' new') :
    Called s u (k + l) m' (new ++ new') where
  calls := by rw [second.calls, first.calls, Nat.add_assoc]
  mem := second.mem
  pools := by rw [second.pools, first.pools, List.append_assoc]

/-- What a function does by some calls: its status is a success exactly when they all succeed, and
then its pointer and the state are as told. -/
def Stage {α : Type} (fw : Firmware) (count : Nat) (After : Efi → Option α → Efi → Prop)
    (x : Boot (EfiStatus × Option α)) : Prop :=
  ∀ (E : Stop → Prop) (s : Efi), wp x E (fun r t =>
    (r.1 = EFI_SUCCESS ↔ Succeeds fw s.calls.length count) ∧
      (r.1 = EFI_SUCCESS → After s r.2 t)) s

section Stages

variable {α β : Type} {count : Nat} {After : Efi → Option α → Efi → Prop}
  {x : Boot (EfiStatus × Option α)}

theorem Stage.bind {f : EfiStatus × Option α → Boot β} {Q : β → Efi → Prop}
    (stage : Stage fw count After x)
    (failed : ¬ Succeeds fw s.calls.length count → ∀ r t, r.1 ≠ EFI_SUCCESS → wp (f r) E Q t)
    (ok : Succeeds fw s.calls.length count → ∀ a t, After s a t → wp (f (EFI_SUCCESS, a)) E Q t) :
    wp (x >>= f) E Q s := by
  rw [wp_bind]
  apply wp_mono (stage E s)
  rintro ⟨status, a⟩ t ⟨succeeds, after⟩
  by_cases done : status = EFI_SUCCESS
  · subst done
    exact ok (succeeds.mp rfl) a t (after rfl)
  · exact failed (fun h => done (succeeds.mpr h)) (status, a) t done

/-- A stage whose caller returns null where it failed. -/
theorem Stage.bind_null {f : EfiStatus × Option α → Boot (Option β)} {Q : Option β → Efi → Prop}
    (stage : Stage fw count After x) (giveUp : ∀ r, r.1 ≠ EFI_SUCCESS → f r = pure none)
    (failed : ¬ Succeeds fw s.calls.length count → ∀ t, Q none t)
    (ok : Succeeds fw s.calls.length count → ∀ a t, After s a t → wp (f (EFI_SUCCESS, a)) E Q t) :
    wp (x >>= f) E Q s := by
  refine stage.bind (fun h r t hr => ?_) ok
  rw [giveUp r hr]
  exact failed h t

/-- A stage ends with a message where it failed. -/
theorem reported_spec {str : String} {status : EfiStatus} {a : Option α}
    {R : EfiStatus × Option α → Efi → Prop} (ok : status = EFI_SUCCESS → R (status, a) s)
    (failed : status ≠ EFI_SUCCESS → ∀ t, R (status, a) t) :
    wp (report str status >>= fun _ => pure (status, a)) E R s := by
  rw [wp_bind, report]
  by_cases done : status = EFI_SUCCESS
  · rw [if_neg (not_not.mpr done)]
    exact ok done
  · rw [if_pos done]
    exact failed done _

end Stages

/-! ## Opening the file -/

/-- A call for an interface, and a message where it failed. -/
theorem interface_stage (c : Call) (str : EfiStatus → String) :
    Stage fw 1 (fun s a t => a = some () ∧ Called s t 1 s.mem [])
      (callInterface fw c >>= fun r => report (str r.1) r.1 >>= fun _ => pure r) := by
  intro E s
  rw [wp_bind]
  apply reported_spec
  · intro done
    refine ⟨succeeds_one.symm, fun _ => ⟨if_pos done, List.length_append, rfl, ?_⟩⟩
    exact (List.append_nil s.pools).symm
  · intro failed t
    exact ⟨succeeds_one.symm, fun done => absurd done failed⟩

theorem getImage_stage :
    Stage fw 1 (fun s a t => a = some () ∧ Called s t 1 s.mem []) (getImage fw) :=
  interface_stage (.openProtocol .loadedImage) fun status =>
    if status = EFI_UNSUPPORTED then "The device doesn't support specified image protocol"
      else "Opening EFI Loaded Image Protocol failed"

theorem getRootFs_stage :
    Stage fw 1 (fun s a t => a = some () ∧ Called s t 1 s.mem []) (getRootFs fw (some ())) :=
  interface_stage (.openProtocol .simpleFileSystem) fun status =>
    if status = EFI_UNSUPPORTED then "The device does not support specified file system protocol"
      else "Opening EFI Simple File System failed"

/-- The calls for the directory: one where none is given. -/
def dirCalls (dir : Option Unit) : Nat := if dir.isNone then 1 else 0

theorem getDir_stage (dir : Option Unit) :
    Stage fw (dirCalls dir) (fun s a t => a = some () ∧ Called s t (dirCalls dir) s.mem [])
      (getDir fw (some ()) dir) := by
  cases dir with
  | none => exact interface_stage .openVolume fun _ => "Accessing root directory failed"
  | some d =>
    intro E s
    refine ⟨iff_of_true rfl fun i hi => absurd hi (Nat.not_lt_zero i), fun _ => ⟨rfl, rfl, rfl, ?_⟩⟩
    exact (List.append_nil s.pools).symm

theorem getFile_stage (fileName : String) :
    Stage fw 1 (fun s a t =>
        a = some ⟨fileName⟩ ∧ t.position ⟨fileName⟩ = 0 ∧ Called s t 1 s.mem [])
      (getFile fw (some ()) fileName) := by
  intro E s
  rw [getFile, wp_deref, wp_bind, openFile, wp_bind]
  show wp (if fw.status s.calls.length = EFI_SUCCESS then _ else _) E _ _
  split_ifs with done
  · apply reported_spec
    · intro _
      refine ⟨succeeds_one.symm, fun _ =>
        ⟨rfl, Function.update_self _ _ _, List.length_append, rfl, ?_⟩⟩
      exact (List.append_nil s.pools).symm
    · exact fun failed => absurd done failed
  · apply reported_spec
    · exact fun h => absurd h done
    · exact fun _ _ => ⟨succeeds_one.symm, fun h => absurd h done⟩

/-- The calls that open a file. -/
def openCalls (dir : Option Unit) : Nat := 1 + (1 + (dirCalls dir + 1))

/-- A file that is opened is at its start. -/
theorem loadFile_spec {Q : Option EfiFile → Efi → Prop}
    (failed : ¬ Succeeds fw s.calls.length (openCalls dir) → ∀ t, Q none t)
    (ok : Succeeds fw s.calls.length (openCalls dir) → ∀ t, t.position ⟨path⟩ = 0 →
      Called s t (openCalls dir) s.mem [] → Q (some ⟨path⟩) t) :
    wp (loadFile fw dir path) E Q s := by
  rw [openCalls, succeeds_add] at failed ok
  refine getImage_stage.bind_null (fun r hr => if_pos hr) (fun h => failed fun h' => h h'.1) ?_
  rintro image _ t ⟨rfl, himage⟩
  rw [← himage.calls, succeeds_add] at failed ok
  refine getRootFs_stage.bind_null (fun r hr => if_pos hr) (fun h => failed fun h' => h h'.2.1) ?_
  rintro fs _ u ⟨rfl, hfs⟩
  rw [← hfs.calls, succeeds_add] at failed ok
  refine (getDir_stage dir).bind_null (fun r hr => if_pos hr)
    (fun h => failed fun h' => h h'.2.2.1) ?_
  rintro hdir _ v ⟨rfl, hv⟩
  rw [← hv.calls] at failed ok
  refine (getFile_stage path).bind_null (fun r hr => if_pos hr)
    (fun h => failed fun h' => h h'.2.2.2) ?_
  rintro file _ w ⟨rfl, position, hw⟩
  have called := himage.trans (hfs.trans (hv.trans hw))
  rw [hv.mem, hfs.mem, himage.mem] at called
  exact ok ⟨image, fs, hdir, file⟩ w position called

/-! ## Reading the font -/

theorem allocatePool_stage (size : Nat) :
    Stage fw 1 (fun s a t => a = some (fw.pool s.calls.length) ∧ t.position = s.position ∧
      Called s t 1 s.mem [⟨fw.pool s.calls.length, size⟩]) (allocatePool fw size) := by
  intro E s
  rw [allocatePool, wp_bind, wp_get, wp_bind]
  show wp (if fw.status s.calls.length = EFI_SUCCESS then _ else _) E _ _
  split_ifs with done
  · exact ⟨succeeds_one.symm, fun _ => ⟨rfl, rfl, List.length_append, rfl, rfl⟩⟩
  · exact ⟨succeeds_one.symm, fun h => absurd h done⟩

/-- The last part of the two functions that read: the file is read to a buffer. -/
theorem read_stage (file : EfiFile) (size buffer : Nat) (str : String) (a : Option Nat) :
    Stage fw 1 (fun s r t => r = a ∧ Called s t 1 (s.mem.copy buffer
        (((fw.volume file.name).drop (s.position file)).take size)) [])
      (read fw file size buffer >>= fun status =>
        report str status >>= fun _ => pure (status, a)) := by
  intro E s
  rw [wp_bind, read, wp_bind, readBytes, wp_bind]
  show wp (if fw.status s.calls.length = EFI_SUCCESS then _ else _) E _ _
  split_ifs with done
  · apply reported_spec
    · intro _
      refine ⟨succeeds_one.symm, fun _ => ⟨rfl, List.length_append, rfl, ?_⟩⟩
      exact (List.append_nil s.pools).symm
    · exact fun failed => absurd done failed
  · apply reported_spec
    · exact fun h => absurd h done
    · exact fun _ _ => ⟨succeeds_one.symm, fun h => absurd h done⟩

/-- A buffer is allocated, and the file is read to it from where it is. -/
theorem allocateRead_stage (file : EfiFile) (size : Nat) (str : String)
    {f : EfiStatus × Option Nat → Boot (EfiStatus × Option Nat)}
    (giveUp : ∀ r, r.1 ≠ EFI_SUCCESS → ∃ err, f r = printEfiErr err r.1 >>= fun _ => pure r)
    (goOn : ∀ buffer, f (EFI_SUCCESS, some buffer) = read fw file size buffer >>= fun status =>
      report str status >>= fun _ => pure (status, some buffer)) :
    Stage fw (1 + 1) (fun s a t => a = some (fw.pool s.calls.length) ∧
      Called s t (1 + 1) (s.mem.copy (fw.pool s.calls.length)
        (((fw.volume file.name).drop (s.position file)).take size))
        [⟨fw.pool s.calls.length, size⟩]) (allocatePool fw size >>= f) := by
  intro E s
  rw [succeeds_add]
  refine (allocatePool_stage size).bind ?_ ?_
  · intro h r t failed
    obtain ⟨err, hf⟩ := giveUp r failed
    rw [hf]
    exact ⟨iff_of_false failed fun h' => h h'.1, fun done => absurd done failed⟩
  · rintro hpool _ t ⟨rfl, position, first⟩
    rw [goOn]
    apply wp_mono (read_stage file size _ _ _ E t)
    rintro r u ⟨succeeds, after⟩
    rw [first.calls] at succeeds
    refine ⟨succeeds.trans (and_iff_right hpool).symm, fun done => ?_⟩
    obtain ⟨hr, second⟩ := after done
    rw [position, first.mem] at second
    exact ⟨hr, first.trans second⟩

theorem getPsfHeader_stage (file : EfiFile) :
    Stage fw (1 + 1) (fun s a t => a = some (fw.pool s.calls.length) ∧
      Called s t (1 + 1) (s.mem.copy (fw.pool s.calls.length)
        (((fw.volume file.name).drop (s.position file)).take PSF1_HEADER_SZ))
        [⟨fw.pool s.calls.length, PSF1_HEADER_SZ⟩]) (getPsfHeader fw (some file)) :=
  allocateRead_stage file PSF1_HEADER_SZ "Reading PSF header failed"
    (fun _ failed => ⟨_, if_pos failed⟩) fun _ => rfl

/-- The glyphs are read from the end of the header on, wherever the file was. -/
theorem getPsfGlyphs_stage (file : EfiFile) (size : Nat) :
    Stage fw (1 + (1 + 1)) (fun s a t => a = some (fw.pool (s.calls.length + 1)) ∧
      Called s t (1 + (1 + 1)) (s.mem.copy (fw.pool (s.calls.length + 1))
        (((fw.volume file.name).drop PSF1_HEADER_SZ).take size))
        [⟨fw.pool (s.calls.length + 1), size⟩]) (getPsfGlyphs fw (some file) size) := by
  intro E s
  rw [getPsfGlyphs, wp_deref, wp_bind, succeeds_add, succeeds_one]
  apply setPosition_spec
  intro t calls position
  rw [wp_ite]
  refine ⟨fun failed => ?_, fun done => ?_⟩
  · exact ⟨iff_of_false failed fun h => failed h.1, fun done => absurd done failed⟩
  · have hseek := not_not.mp done
    obtain ⟨held, hposition⟩ := position hseek
    have hcalls : t.calls.length = s.calls.length + 1 := by rw [calls, List.length_append]; rfl
    refine wp_mono (allocateRead_stage file size "Reading PSF glyphs failed"
      (fun _ failed => ⟨_, if_pos failed⟩) (fun _ => rfl) E t) ?_
    rintro r u ⟨succeeds, after⟩
    rw [hcalls] at succeeds
    refine ⟨succeeds.trans (and_iff_right hseek).symm, fun done => ?_⟩
    obtain ⟨hr, read⟩ := after done
    have sought : Called s t 1 s.mem [] :=
      ⟨hcalls, congrArg Held.mem held, by rw [List.append_nil]; exact congrArg Held.pools held⟩
    rw [hcalls, sought.mem, hposition] at read
    rw [hcalls] at hr
    exact ⟨hr, sought.trans read⟩

/-! ## What is loaded -/

section Loading

variable (fw : Firmware) (dir : Option Unit) (path : String) (s : Efi)

/-- The calls of `load_psf_font`, where none of them fails. -/
def fontCalls : Nat := openCalls dir + (1 + 1 + (1 + (1 + 1) + 1))

/-- The buffers of the header, of the glyphs and of the font, by the calls that allocate them. -/
def headerAt : Nat := fw.pool (s.calls.length + openCalls dir)

def glyphsAt : Nat := fw.pool (s.calls.length + openCalls dir + (1 + 1) + 1)

def fontAt : Nat := fw.pool (s.calls.length + openCalls dir + (1 + 1) + (1 + (1 + 1)))

/-- The memory after the header was read, and the header there. Of a file that ends in its header,
the rest of it is what the buffer had before. -/
def headerMem : Mem := s.mem.copy (headerAt fw dir s) ((fw.volume path).take PSF1_HEADER_SZ)

def headerRead : Psf1Header := .ofMem (headerMem fw dir path s) (headerAt fw dir s)

/-- The size that `load_psf_font` reads the glyphs with. -/
def glyphsSz (header : Psf1Header) : Nat :=
  if header.mode = PSF1_MODE512 then header.charsize * 512 else header.charsize * 256

/-- The header is one that `load_psf_font` reports as invalid. -/
def Rejected : Prop := verifyPsfHeader (headerRead fw dir path s) = true

/-- The font that `load_psf_font` returns, with the state after it. -/
structure FontLoaded (font : Psf1Font) (t : Efi) : Prop where
  succeeds : Succeeds fw s.calls.length (fontCalls dir)
  taken : ¬ Rejected fw dir path s
  font_eq : font = ⟨some (headerAt fw dir s), GLYPH_HEIGHT, GLYPH_WIDTH, some (glyphsAt fw dir s)⟩
  mem : t.mem = (headerMem fw dir path s).copy (glyphsAt fw dir s)
    (((fw.volume path).drop PSF1_HEADER_SZ).take (glyphsSz (headerRead fw dir path s)))
  pools : t.pools = s.pools ++ [⟨headerAt fw dir s, PSF1_HEADER_SZ⟩,
    ⟨glyphsAt fw dir s, glyphsSz (headerRead fw dir path s)⟩, ⟨fontAt fw dir s, PSF1_FONT_SZ⟩]

theorem succeeds_fontCalls : Succeeds fw s.calls.length (fontCalls dir) ↔
    Succeeds fw s.calls.length (openCalls dir) ∧
      Succeeds fw (s.calls.length + openCalls dir) (1 + 1) ∧
        Succeeds fw (s.calls.length + openCalls dir + (1 + 1)) (1 + (1 + 1)) ∧
          Succeeds fw (s.calls.length + openCalls dir + (1 + 1) + (1 + (1 + 1))) 1 := by
  rw [fontCalls, ← succeeds_add, ← succeeds_add, ← succeeds_add]

/-- `load_psf_font` returns null where a call fails or the header is reported, and else the font. -/
theorem loadPsfFont_spec :
    wp (loadPsfFont fw dir path) E (fun r t =>
      (r = none ∧ (¬ Succeeds fw s.calls.length (fontCalls dir) ∨ Rejected fw dir path s)) ∨
        ∃ font, r = some font ∧ FontLoaded fw dir path s font t) s := by
  have split := succeeds_fontCalls fw dir s
  rw [loadPsfFont, wp_bind]
  apply loadFile_spec
  · intro failed t
    exact .inl ⟨rfl, .inl fun h => failed (split.mp h).1⟩
  intro openOk t position opened
  refine (getPsfHeader_stage ⟨path⟩).bind_null (fun r hr => if_pos hr) ?_ ?_
  · intro failed u
    rw [opened.calls] at failed
    exact .inl ⟨rfl, .inl fun h => failed (split.mp h).2.1⟩
  rintro headerOk _ u ⟨rfl, header⟩
  rw [opened.calls, position, opened.mem] at header
  have read := opened.trans header
  have hheader : Psf1Header.ofMem u.mem (fw.pool t.calls.length) = headerRead fw dir path s := by
    rw [read.mem, opened.calls]
    rfl
  show wp (if verifyPsfHeader (.ofMem u.mem (fw.pool t.calls.length)) = true then _ else _) E _ u
  rw [hheader, wp_ite]
  refine ⟨fun rejected => .inl ⟨rfl, .inr rejected⟩, fun taken => ?_⟩
  have hcalls : u.calls.length = s.calls.length + openCalls dir + (1 + 1) := by
    rw [read.calls, Nat.add_assoc]
  refine (getPsfGlyphs_stage ⟨path⟩ _).bind_null (fun r hr => if_pos hr) ?_ ?_
  · intro failed v
    rw [hcalls] at failed
    exact .inl ⟨rfl, .inl fun h => failed (split.mp h).2.2.1⟩
  rintro glyphsOk _ v ⟨rfl, glyphs⟩
  have hcalls' : v.calls.length = s.calls.length + openCalls dir + (1 + 1) + (1 + (1 + 1)) := by
    rw [glyphs.calls, hcalls]
  refine (allocatePool_stage PSF1_FONT_SZ).bind ?_ ?_
  · intro failed r w hr
    show wp (if r.1 ≠ EFI_SUCCESS then _ else _) E _ w
    rw [if_pos hr]
    rw [hcalls'] at failed
    exact .inl ⟨rfl, .inl fun h => failed (split.mp h).2.2.2⟩
  rintro fontOk _ w ⟨rfl, -, font⟩
  have loaded := read.trans (glyphs.trans font)
  rw [opened.calls] at headerOk
  rw [hcalls] at glyphsOk
  rw [hcalls'] at fontOk
  refine .inr ⟨_, rfl, split.mpr ⟨openOk, headerOk, glyphsOk, fontOk⟩, taken, ?_, ?_, ?_⟩
  · rw [opened.calls, hcalls]
    rfl
  · rw [loaded.mem, glyphs.mem, read.mem, hcalls]
    rfl
  · rw [loaded.pools, hcalls, hcalls']
    rfl

end Loading

/-! ## What the console should draw -/

/-- The font that the kernel is passed. -/
def Psf1Font.toConsole (font : Psf1Font) : ConsoleFont where
  psfHeader := font.psfHeader.getD 0
  glyphHeight := font.glyphHeight
  glyphWidth := font.glyphWidth
  glyphBuffer := font.glyphBuffer.getD 0

/-- The first bytes of a PSF1 file. -/
def MAGIC_BYTES : List Byte := [0x36, 0x04]

def modeOf (file : List Byte) : Nat := (file[2]?.getD 0).toNat

def charsizeOf (file : List Byte) : Nat := (file[3]?.getD 0).toNat

/-- The number of glyphs of a PSF1 file, by bit 0 of its mode. -/
def glyphCount (file : List Byte) : Nat := if (modeOf file).testBit 0 then 512 else 256

def glyphsLength (file : List Byte) : Nat := glyphCount file * charsizeOf file

/-- The glyphs of a PSF1 file, and one of them. -/
def glyphsOf (file : List Byte) : List Byte := (file.drop PSF1_HEADER_SZ).take (glyphsLength file)

def glyphOf (file : List Byte) (code : Nat) : List Byte :=
  (file.drop (PSF1_HEADER_SZ + code * charsizeOf file)).take (charsizeOf file)

/-- What is asked of a font that was loaded: the file is a PSF1 file, all of its glyphs are in
memory that was handed out for them, and the rows of every character that has a glyph are those of
the file. -/
structure FontRight (file : List Byte) (font : ConsoleFont) (pools : List Range) (m : Mem) :
    Prop where
  magic : file.take 2 = MAGIC_BYTES
  whole : PSF1_HEADER_SZ + glyphsLength file ≤ file.length
  room : ∃ r ∈ pools, r.addr ≤ font.glyphBuffer ∧ font.glyphBuffer + glyphsLength file ≤ r.stop
  held : m.HoldsAt font.glyphBuffer (glyphsOf file)
  rows : ∀ cursor chr, Console.Printable chr →
    (font.glyph m cursor chr).rows m = glyphOf file chr.toNat

/-- The pixels of a character have the colours of the bits in the file. -/
theorem FontRight.pixel {file : List Byte} {console : ConsoleFont} {pools : List Range} {m : Mem}
    (right : FontRight file console pools m) {fb : PrintOS.Framebuffer}
    {cursor : ConsoleCursor} {chr : Byte}
    (printable : Console.Printable chr) (inside : fb.Inside (console.glyph m cursor chr))
    (noWrap : fb.NoWrap (console.glyph m cursor chr)) {x y : Nat} {bits : Byte}
    (hx : x < console.glyphWidth) (hbits : (glyphOf file chr.toNat)[y]? = some bits) :
    (fb.printGlyph (console.glyph m cursor chr) m).1.readLE
        (fb.pixelAt (u16 (cursor.col * console.glyphWidth) + x)
          (u16 (cursor.row * console.glyphHeight) + y)) 4 =
      if bits.getLsbD (7 - x) then u32 cursor.fg else u32 cursor.bg := by
  rw [← right.rows cursor chr printable] at hbits
  exact PrintOS.Framebuffer.printGlyph_pixel inside noWrap hx hbits

/-- The files that the font is right for: a glyph has as many bytes as the console draws rows, and
the mode is 1 where bit 0 of it is set. -/
structure Suits (file : List Byte) : Prop where
  magic : file.take 2 = MAGIC_BYTES
  whole : PSF1_HEADER_SZ + glyphsLength file ≤ file.length
  charsize : charsizeOf file = GLYPH_HEIGHT
  mode : (modeOf file).testBit 0 → modeOf file = PSF1_MODE512

/-! ## The font of a file -/

section Right

variable {font : Psf1Font} {r : Option Psf1Font} {t : Efi}

theorem headerMem_apply {i : Nat} (hi : i < PSF1_HEADER_SZ) (hlen : i < (fw.volume path).length) :
    headerMem fw dir path s (headerAt fw dir s + i) = (fw.volume path)[i]?.getD 0 := by
  apply Mem.copy_apply
  rw [List.getElem?_take_of_lt hi, List.getElem?_eq_getElem hlen]
  rfl

/-- A file that has a header has the sizes that it was read with. -/
theorem headerRead_eq (dir : Option Unit) (s : Efi)
    (hlen : PSF1_HEADER_SZ ≤ (fw.volume path).length) :
    (headerRead fw dir path s).mode = modeOf (fw.volume path) ∧
      (headerRead fw dir path s).charsize = charsizeOf (fw.volume path) :=
  ⟨congrArg BitVec.toNat (headerMem_apply (show 2 < 4 by decide) (Nat.lt_of_succ_lt hlen)),
    congrArg BitVec.toNat (headerMem_apply (show 3 < 4 by decide) hlen)⟩

/-- What is reported as invalid are the magic bytes in the other order. -/
theorem rejected_iff {a b : Byte} {bytes : List Byte} (hfile : fw.volume path = a :: b :: bytes) :
    Rejected fw dir path s ↔ a = 0x04 ∧ b = 0x36 := by
  have first : headerMem fw dir path s (headerAt fw dir s) = a := by
    refine (headerMem_apply (i := 0) (by decide) (by simp [hfile])).trans ?_
    rw [hfile]
    rfl
  have second : headerMem fw dir path s (headerAt fw dir s + 1) = b := by
    refine (headerMem_apply (i := 1) (by decide) (by simp [hfile])).trans ?_
    rw [hfile]
    rfl
  have hmagic : (headerRead fw dir path s).magic = a.toNat + 256 * b.toNat := by
    rw [← first, ← second]
    rfl
  have ha := a.isLt
  have hb := b.isLt
  have hone : PSF1_MAGIC = 0x04 + 256 * 0x36 := rfl
  rw [Rejected, verifyPsfHeader, beq_iff_eq, hmagic, hone, ← BitVec.toNat_inj, ← BitVec.toNat_inj]
  show _ ↔ a.toNat = 4 ∧ b.toNat = 54
  omega

theorem Separate.not_has {a b : Range} {x : Nat} (h : Separate a b) (hx : a.Has x) :
    x < b.addr ∨ b.addr + b.size ≤ x := by
  by_contra hmeet
  exact h x hx ⟨by omega, by rw [Range.stop]; omega⟩

instance : Std.Symm Separate := ⟨fun _ _ h x hx hx' => h x hx' hx⟩

/-- The glyphs were not read over the header. -/
theorem FontLoaded.charsize_eq (loaded : FontLoaded fw dir path s font t)
    (honest : t.pools.Pairwise Separate)
    (hlen : PSF1_HEADER_SZ ≤ (fw.volume path).length) :
    font.toConsole.charsize t.mem = charsizeOf (fw.volume path) := by
  rw [loaded.pools] at honest
  have hapart : Separate ⟨headerAt fw dir s, PSF1_HEADER_SZ⟩
      ⟨glyphsAt fw dir s, glyphsSz (headerRead fw dir path s)⟩ :=
    (List.pairwise_cons.mp (List.pairwise_append.mp honest).2.1).1 _ List.mem_cons_self
  have hout : headerAt fw dir s + 3 < glyphsAt fw dir s ∨
      glyphsAt fw dir s + glyphsSz (headerRead fw dir path s) ≤ headerAt fw dir s + 3 :=
    hapart.not_has ⟨Nat.le_add_right _ _, Nat.add_lt_add_left (show 3 < 4 by decide) _⟩
  have hbytes : (((fw.volume path).drop PSF1_HEADER_SZ).take
      (glyphsSz (headerRead fw dir path s))).length ≤ glyphsSz (headerRead fw dir path s) :=
    List.length_take_le _ _
  rw [ConsoleFont.charsize, loaded.font_eq, loaded.mem]
  show (Mem.copy _ _ _ (headerAt fw dir s + 3)).toNat = _
  rw [Mem.copy_of_outside (by omega), headerMem_apply (by decide) hlen]
  rfl

theorem FontLoaded.glyphs_mem (loaded : FontLoaded fw dir path s font t) :
    ⟨glyphsAt fw dir s, glyphsSz (headerRead fw dir path s)⟩ ∈ t.pools := by
  rw [loaded.pools]
  simp

/-- The memory that has the first glyph is the buffer that the glyphs were read to. -/
theorem FontLoaded.room_eq (loaded : FontLoaded fw dir path s font t)
    (honest : t.pools.Pairwise Separate)
    (hpos : 0 < glyphsSz (headerRead fw dir path s)) {r : Range} (hr : r ∈ t.pools)
    (has : r.Has (glyphsAt fw dir s)) :
    r = ⟨glyphsAt fw dir s, glyphsSz (headerRead fw dir path s)⟩ := by
  by_contra hne
  exact honest.forall hr loaded.glyphs_mem hne _ has
    ⟨Nat.le_refl _, Nat.lt_add_of_pos_right hpos⟩

/-- A printable character has a glyph in every file, whether it has 256 or 512 of them. -/
theorem printable_lt (file : List Byte) {chr : Byte} (printable : Console.Printable chr) :
    chr.toNat + 1 ≤ glyphCount file := by
  have hmax : chr.toNat ≤ 127 := printable.2
  unfold glyphCount
  split_ifs
  · omega
  · omega

theorem glyph_end_le {file : List Byte} {code : Nat} (hcode : code + 1 ≤ glyphCount file) :
    code * charsizeOf file + charsizeOf file ≤ glyphsLength file := by
  rw [← Nat.succ_mul]
  exact Nat.mul_le_mul_right _ hcode

theorem glyphOf_length {file : List Byte} (whole : PSF1_HEADER_SZ + glyphsLength file ≤ file.length)
    {code : Nat} (hcode : code + 1 ≤ glyphCount file) :
    (glyphOf file code).length = charsizeOf file := by
  have hend := glyph_end_le hcode
  rw [glyphOf, List.length_take, List.length_drop]
  omega

/-- The rows are found by the size of a glyph in the header, and are as many as it has bytes. -/
theorem rows_eq_glyphOf {file : List Byte} {console : ConsoleFont} {m : Mem}
    (whole : PSF1_HEADER_SZ + glyphsLength file ≤ file.length)
    (height : console.glyphHeight = charsizeOf file)
    (charsize : console.charsize m = charsizeOf file)
    (held : m.HoldsAt console.glyphBuffer (glyphsOf file))
    (memory : console.glyphBuffer + glyphsLength file ≤ 2 ^ 64) (cursor : ConsoleCursor)
    {chr : Byte} (printable : Console.Printable chr) :
    (console.glyph m cursor chr).rows m = glyphOf file chr.toNat := by
  have hend := glyph_end_le (printable_lt file printable)
  have hlength := glyphOf_length whole (printable_lt file printable)
  apply List.ext_getElem?
  intro y
  by_cases hy : y < charsizeOf file
  · have hbitmap : (console.glyph m cursor chr).bitmap =
        console.glyphBuffer + chr.toNat * charsizeOf file := by
      show u64 (console.glyphBuffer + chr.toNat * console.charsize m) = _
      rw [charsize, u64_of_lt (by omega)]
    have hheight : (console.glyph m cursor chr).height = charsizeOf file := height
    have hfile : PSF1_HEADER_SZ + chr.toNat * charsizeOf file + y < file.length := by omega
    have hglyphs : (glyphsOf file)[chr.toNat * charsizeOf file + y]? =
        (glyphOf file chr.toNat)[y]? := by
      rw [glyphsOf, glyphOf, List.getElem?_take_of_lt (by omega), List.getElem?_take_of_lt hy,
        List.getElem?_drop, List.getElem?_drop, Nat.add_assoc]
    have hget : (glyphOf file chr.toNat)[y]? = some ((glyphOf file chr.toNat).get ⟨y, by omega⟩) :=
      List.getElem?_eq_getElem _
    rw [Glyph.rows_getElem? (by omega), hbitmap, Nat.add_assoc, held _ _ (hglyphs.trans hget), hget]
  · have hrows : ((console.glyph m cursor chr).rows m).length = charsizeOf file := by
      rw [Glyph.rows_length]
      exact height
    rw [List.getElem?_eq_none (by omega), List.getElem?_eq_none (by omega)]

/-- The size that the glyphs are read with, where the mode is 1 or has bit 0 clear. -/
theorem glyphsSz_of_mode {header : Psf1Header} {file : List Byte}
    (hmode : header.mode = modeOf file)
    (hcharsize : header.charsize = charsizeOf file)
    (mode : (modeOf file).testBit 0 → modeOf file = PSF1_MODE512) :
    glyphsSz header = glyphsLength file := by
  rw [glyphsSz, glyphsLength, glyphCount, hmode, hcharsize]
  by_cases bit : (modeOf file).testBit 0
  · rw [if_pos (mode bit), if_pos bit, Nat.mul_comm]
  · have hne : modeOf file ≠ PSF1_MODE512 := by
      intro h
      rw [h] at bit
      exact bit rfl
    rw [if_neg hne, if_neg bit, Nat.mul_comm]

theorem FontLoaded.fontRight (loaded : FontLoaded fw dir path s font t)
    (honest : t.pools.Pairwise Separate)
    (inMemory : ∀ p ∈ t.pools, p.stop ≤ 2 ^ 64) (suits : Suits (fw.volume path)) :
    FontRight (fw.volume path) font.toConsole t.pools t.mem := by
  have hlen : PSF1_HEADER_SZ ≤ (fw.volume path).length := Nat.le_of_add_right_le suits.whole
  obtain ⟨hmode, hcharsize⟩ := headerRead_eq dir s hlen
  have hsz := glyphsSz_of_mode hmode hcharsize suits.mode
  have hbuffer : font.toConsole.glyphBuffer = glyphsAt fw dir s := by
    rw [loaded.font_eq]
    rfl
  have hheight : font.toConsole.glyphHeight = charsizeOf (fw.volume path) := by
    rw [loaded.font_eq, suits.charsize]
    rfl
  have hglyphs := loaded.glyphs_mem
  rw [hsz] at hglyphs
  have hheld : t.mem.HoldsAt font.toConsole.glyphBuffer (glyphsOf (fw.volume path)) := by
    rw [loaded.mem, hsz, hbuffer]
    exact Mem.holdsAt_copy _ _ _
  refine ⟨suits.magic, suits.whole, ⟨_, hglyphs, ?_⟩, hheld, ?_⟩
  · rw [hbuffer]
    exact ⟨Nat.le_refl _, Nat.le_refl _⟩
  · intro cursor chr printable
    refine rows_eq_glyphOf suits.whole hheight (loaded.charsize_eq honest hlen) hheld ?_ cursor
      printable
    rw [hbuffer]
    exact inMemory _ hglyphs

theorem FontLoaded.suits (loaded : FontLoaded fw dir path s font t)
    (honest : t.pools.Pairwise Separate)
    (right : FontRight (fw.volume path) font.toConsole t.pools t.mem) : Suits (fw.volume path) := by
  have hlen : PSF1_HEADER_SZ ≤ (fw.volume path).length := Nat.le_of_add_right_le right.whole
  obtain ⟨hmode, hcharsize⟩ := headerRead_eq dir s hlen
  have hbuffer : font.toConsole.glyphBuffer = glyphsAt fw dir s := by
    rw [loaded.font_eq]
    rfl
  -- the space has as many rows as bytes
  have hspace : Console.Printable Console.SPACE := by decide
  have hlength := congrArg List.length (right.rows .reset Console.SPACE hspace)
  have hcount := printable_lt (fw.volume path) hspace
  have charsize : charsizeOf (fw.volume path) = GLYPH_HEIGHT := by
    rw [glyphOf_length right.whole hcount, Glyph.rows_length] at hlength
    rw [← hlength]
    show font.glyphHeight = _
    rw [loaded.font_eq]
  -- the buffer has room for all of them
  refine ⟨right.magic, right.whole, charsize, fun bit => ?_⟩
  obtain ⟨range, hrange, hlo, hhi⟩ := right.room
  rw [hbuffer] at hlo hhi
  by_contra hne
  have hlengthOf : glyphsLength (fw.volume path) = 512 * 16 := by
    rw [glyphsLength, glyphCount, if_pos bit, charsize]
    rfl
  have hsz : glyphsSz (headerRead fw dir path s) = 16 * 256 := by
    rw [glyphsSz, hmode, if_neg hne, hcharsize, charsize]
    rfl
  have hroom := loaded.room_eq honest (by omega) hrange ⟨hlo, by omega⟩
  rw [hroom] at hhi
  have hstop : glyphsAt fw dir s + 512 * 16 ≤ glyphsAt fw dir s + 16 * 256 := by
    rw [hlengthOf] at hhi
    rw [← hsz]
    exact hhi
  omega

/-- **What `load_psf_font` returns is null or right exactly when a call fails, the header is
reported as invalid, or the file suits the console.** For every file, every state before the call,
and all firmware that hands out no memory twice. -/
theorem font_right_iff (fw : Firmware) (dir : Option Unit) (path : String) (s : Efi)
    (r : Option Psf1Font) (t : Efi) (ran : loadPsfFont fw dir path s = .ok (r, t))
    (honest : t.pools.Pairwise Separate) (inMemory : ∀ p ∈ t.pools, p.stop ≤ 2 ^ 64) :
    (∀ font, r = some font → FontRight (fw.volume path) font.toConsole t.pools t.mem) ↔
      ¬ Succeeds fw s.calls.length (fontCalls dir) ∨ Rejected fw dir path s ∨
        Suits (fw.volume path) := by
  have spec : wp (loadPsfFont fw dir path) (fun _ => True) _ s := loadPsfFont_spec fw dir path s
  rcases (wp_of_ok ran).mp spec with ⟨rfl, hnull⟩ | ⟨font, rfl, loaded⟩
  · refine iff_of_true (fun font h => absurd h (by simp)) ?_
    rcases hnull with failed | rejected
    · exact .inl failed
    · exact .inr (.inl rejected)
  · constructor
    · intro right
      exact .inr (.inr (loaded.suits honest (right font rfl)))
    · rintro (failed | rejected | suits)
      · exact absurd loaded.succeeds failed
      · exact absurd rejected loaded.taken
      · rintro _ ⟨⟩
        exact loaded.fontRight honest inMemory suits

/-- Where no call fails, a file is loaded unless its header is reported. -/
theorem loads_of_succeeds (fw : Firmware) (dir : Option Unit) (path : String) (s : Efi)
    (succeeds : Succeeds fw s.calls.length (fontCalls dir))
    (taken : ¬ Rejected fw dir path s) :
    ∃ font t, loadPsfFont fw dir path s = .ok (some font, t) ∧ FontLoaded fw dir path s font t := by
  obtain ⟨r, t, ran, ⟨rfl, failed | rejected⟩ | ⟨font, rfl, loaded⟩⟩ :=
    exists_of_wp (loadPsfFont_spec fw dir path s)
  · exact absurd succeeds failed
  · exact absurd rejected taken
  · exact ⟨font, t, ran, loaded⟩

end Right

/-! ## Two files -/

/-- Firmware that fails no call, with one file. -/
def fontFirmware (file : List Byte) : Firmware where
  status := fun _ => EFI_SUCCESS
  pool := fun n => n * 0x100000
  memoryMap := fun _ => []
  mapKey := fun _ => 0
  descriptorSize := fun _ => 48
  volume := fun _ => file
  mode := ⟨0, 0, 0, 0, 0⟩
  configurationTable := []
  stack := fun _ => 0

def FONT_PATH : String := "zap-light16.psf"

/-- The machine that it starts the bootloader on. -/
def zeroed : Efi := .start fun _ => 0

theorem separate_of_le {a b : Range} (h : a.stop ≤ b.addr) : Separate a b := by
  rintro x ⟨-, hx⟩ ⟨hx', -⟩
  omega

/-- What it hands out to `load_psf_font`. -/
def fontPools (size : Nat) : List Range := [⟨0x400000, 4⟩, ⟨0x700000, size⟩, ⟨0x900000, 24⟩]

theorem fontPools_separate {size : Nat} (hsize : size ≤ 255 * 512) :
    (fontPools size).Pairwise Separate := by
  have hglyphs : Separate ⟨0x700000, size⟩ ⟨0x900000, 24⟩ := separate_of_le (by
    show 0x700000 + size ≤ 0x900000
    omega)
  have hheader : ∀ r ∈ [(⟨0x700000, size⟩ : Range), ⟨0x900000, 24⟩], Separate ⟨0x400000, 4⟩ r := by
    intro r hr
    apply separate_of_le
    rcases List.mem_cons.mp hr with rfl | hr
    · show 0x400000 + 4 ≤ 0x700000
      decide
    · obtain rfl := List.mem_singleton.mp hr
      decide
  refine .cons hheader (.cons ?_ (List.pairwise_singleton _ _))
  intro r hr
  obtain rfl := List.mem_singleton.mp hr
  exact hglyphs

theorem fontPools_stop {size : Nat} (hsize : size ≤ 255 * 512) :
    ∀ p ∈ fontPools size, p.stop ≤ 2 ^ 64 := by
  intro p hp
  rcases List.mem_cons.mp hp with rfl | hp
  · decide
  rcases List.mem_cons.mp hp with rfl | hp
  · show 0x700000 + size ≤ 2 ^ 64
    omega
  · obtain rfl := List.mem_singleton.mp hp
    decide

theorem fontFirmware_at (file : List Byte) :
    headerAt (fontFirmware file) none zeroed = 0x400000 ∧
      glyphsAt (fontFirmware file) none zeroed = 0x700000 ∧
        fontAt (fontFirmware file) none zeroed = 0x900000 := by
  have hopen : zeroed.calls.length + openCalls none = 4 := rfl
  rw [headerAt, glyphsAt, fontAt, hopen]
  exact ⟨rfl, rfl, rfl⟩

theorem glyphsSz_le (fw : Firmware) (dir : Option Unit) (path : String) (s : Efi) :
    glyphsSz (headerRead fw dir path s) ≤ 255 * 512 := by
  have hcharsize : (headerRead fw dir path s).charsize < 2 ^ 8 :=
    (headerMem fw dir path s (headerAt fw dir s + 3)).isLt
  unfold glyphsSz
  split_ifs
  · omega
  · omega

/-- It loads every file that is not reported, and hands out no memory twice. -/
theorem fontFirmware_loads {a b : Byte} (bytes : List Byte) (taken : ¬ (a = 0x04 ∧ b = 0x36)) :
    ∃ font t, loadPsfFont (fontFirmware (a :: b :: bytes)) none FONT_PATH zeroed =
        .ok (some font, t) ∧
      FontLoaded (fontFirmware (a :: b :: bytes)) none FONT_PATH zeroed font t ∧
      t.pools.Pairwise Separate ∧ ∀ p ∈ t.pools, p.stop ≤ 2 ^ 64 := by
  have hfile : (fontFirmware (a :: b :: bytes)).volume FONT_PATH = a :: b :: bytes := rfl
  obtain ⟨font, t, ran, loaded⟩ :=
    loads_of_succeeds (fontFirmware (a :: b :: bytes)) none FONT_PATH zeroed (fun _ _ => rfl)
      fun rejected => taken ((rejected_iff hfile).mp rejected)
  have hglyphs := glyphsSz_le (fontFirmware (a :: b :: bytes)) none FONT_PATH zeroed
  have hpools : t.pools =
      fontPools (glyphsSz (headerRead (fontFirmware (a :: b :: bytes)) none FONT_PATH zeroed)) := by
    obtain ⟨hheaderAt, hglyphsAt, hfontAt⟩ := fontFirmware_at (a :: b :: bytes)
    rw [loaded.pools, hheaderAt, hglyphsAt, hfontAt]
    rfl
  refine ⟨font, t, ran, loaded, ?_, ?_⟩
  · rw [hpools]
    exact fontPools_separate hglyphs
  · rw [hpools]
    exact fontPools_stop hglyphs

/-- A font of 256 glyphs of 16 bytes. -/
def zapLight16 : List Byte := 0x36 :: 0x04 :: 0 :: 16 :: List.replicate 4096 0

theorem zapLight16_suits : Suits zapLight16 where
  magic := rfl
  whole := by
    rw [zapLight16, List.length_cons, List.length_cons, List.length_cons, List.length_cons,
      List.length_replicate]
    decide
  charsize := rfl
  mode := by decide

/-- It is loaded, and is right. -/
theorem zapLight16_right : ∃ font t, loadPsfFont (fontFirmware zapLight16) none FONT_PATH zeroed =
      .ok (some font, t) ∧ FontRight zapLight16 font.toConsole t.pools t.mem := by
  obtain ⟨font, t, ran, -, honest, inMemory⟩ := fontFirmware_loads (a := 0x36) (b := 0x04)
    (0 :: 16 :: List.replicate 4096 0) (by decide)
  have right := (font_right_iff (fontFirmware zapLight16) none FONT_PATH zeroed (some font) t ran
    honest inMemory).mpr (.inr (.inr zapLight16_suits))
  exact ⟨font, t, ran, right font rfl⟩

/-- A file that has the first bytes of a kernel is loaded as a font. -/
theorem kernel_loaded_as_font : ∃ font t,
    loadPsfFont (fontFirmware [0x7f, 0x45, 0x4c, 0x46]) none FONT_PATH zeroed = .ok (some font, t) ∧
      t.pools.Pairwise Separate ∧ (∀ p ∈ t.pools, p.stop ≤ 2 ^ 64) ∧
      ¬ FontRight [0x7f, 0x45, 0x4c, 0x46] font.toConsole t.pools t.mem := by
  obtain ⟨font, t, ran, -, honest, inMemory⟩ := fontFirmware_loads (a := 0x7f) (b := 0x45)
    [0x4c, 0x46] (by decide)
  exact ⟨font, t, ran, honest, inMemory, fun right => absurd right.magic (by decide)⟩

end PrintOS.Bootloader
