import PrintOS.Console.Console
import PrintOS.Laws.Framebuffer.Framebuffer

/-!
# Filling a rectangle

`set_all_pixels` and `clear_line` go through a rectangle column by column. Each store has 8 bytes
and a pixel 4, so that a store also writes zeros over the pixel to the right, and at the end of a
scanline over the first pixel of the next row.

As long as the rectangle is narrower than a scanline the next column sets the pixel to the right.
Where it is as wide, the last column blackens the first pixels of the rows below, and the last store
of all goes four bytes past the buffer. So `set_all_pixels` fills the buffer, and only the buffer,
exactly when the width is less than a scanline (`filled_iff`).
-/

namespace PrintOS.Framebuffer

open ByteMemory (Mem Byte)

variable {fb : Framebuffer} {m : Mem} {x y n rows color : Nat}

/-! ## The stores -/

/-- Pixels of four bytes, and the second buffer in memory: no offset in it needs more than 32 bits.
-/
structure Placed (fb : Framebuffer) : Prop where
  bPerPx : fb.bPerPx = 4
  width_le : fb.width ≤ fb.pxPerScan
  size_le : fb.pxPerScan * fb.height * 4 ≤ fb.bSize
  size_lt : fb.bSize < 2 ^ 32
  memory : fb.doubleFbAddr + fb.bSize ≤ 2 ^ 64

/-- A pixel of the buffer is before its end. -/
theorem pixelAt_lt_stop (hx : x < fb.pxPerScan) (hy : y < fb.height) :
    fb.pixelAt x y + 4 ≤ fb.stop := by
  have hrows : (y + 1) * fb.pxPerScan ≤ fb.height * fb.pxPerScan := Nat.mul_le_mul_right _ hy
  rw [Nat.succ_mul] at hrows
  simp only [pixelAt, stop]
  omega

theorem Placed.stop_le (placed : Placed fb) : fb.stop ≤ fb.doubleFbAddr + fb.bSize := by
  have hsize := placed.size_le
  rw [Nat.mul_comm fb.pxPerScan] at hsize
  rw [stop]
  omega

theorem Placed.getPixelAddr (placed : Placed fb) (hx : x < fb.pxPerScan) (hy : y < fb.height) :
    fb.getPixelAddr x y = fb.pixelAt x y := by
  have hpixel := pixelAt_lt_stop hx hy
  have hstop := placed.stop_le
  have hsize := placed.size_lt
  have hmemory := placed.memory
  have hoffset : fb.pixelAt x y = fb.doubleFbAddr + 4 * (y * fb.pxPerScan + x) := rfl
  exact getPixelAddr_of_lt placed.bPerPx (by omega) (by omega) (by omega)

/-- The pixels of a column, downwards. -/
def columnAddrs (fb : Framebuffer) (x y rows : Nat) : List Nat :=
  (List.range' y rows).map (fb.pixelAt x)

/-- The pixels of some columns, one column after the other. -/
def rectAddrs (fb : Framebuffer) (y rows x n : Nat) : List Nat :=
  (List.range' x n).flatMap fun x => fb.columnAddrs x y rows

theorem mem_columnAddrs {a : Nat} :
    a ∈ fb.columnAddrs x y rows ↔ ∃ j, y ≤ j ∧ j < y + rows ∧ fb.pixelAt x j = a := by
  simp only [columnAddrs, List.mem_map, List.mem_range'_1, and_assoc]

theorem mem_rectAddrs {a : Nat} : a ∈ fb.rectAddrs y rows x n ↔
    ∃ i, (x ≤ i ∧ i < x + n) ∧ ∃ j, y ≤ j ∧ j < y + rows ∧ fb.pixelAt i j = a := by
  simp only [rectAddrs, List.mem_flatMap, List.mem_range'_1, mem_columnAddrs]

theorem setColumn_eq_store
    (haddr : ∀ j, y ≤ j → j < y + rows → fb.getPixelAddr x j = fb.pixelAt x j) :
    fb.setColumn x color rows y m = m.store color (fb.columnAddrs x y rows) := by
  induction rows generalizing y m with
  | zero => rfl
  | succ rows ih =>
    have hfirst : fb.setPixel m x y color = m.write64 (fb.pixelAt x y) color := by
      rw [setPixel, haddr y (Nat.le_refl y) (by omega)]
    rw [setColumn, hfirst, ih fun j hj hj' => haddr j (by omega) (by omega)]
    rfl

theorem setColumns_eq_store (haddr : ∀ i, x ≤ i → i < x + n → ∀ j, y ≤ j → j < y + rows →
    fb.getPixelAddr i j = fb.pixelAt i j) :
    fb.setColumns y rows color n x m = m.store color (fb.rectAddrs y rows x n) := by
  induction n generalizing x m with
  | zero => rfl
  | succ n ih =>
    rw [setColumns, setColumn_eq_store (haddr x (Nat.le_refl x) (by omega)),
      ih fun i hi hi' => haddr i (by omega) (by omega), ← Mem.store_append]
    rfl

/-- A rectangle of the buffer, from its left side. -/
theorem Placed.setColumns_eq_store (placed : Placed fb) (hn : n ≤ fb.width)
    (hrows : y + rows ≤ fb.height) :
    fb.setColumns y rows color n 0 m = m.store color (fb.rectAddrs y rows 0 n) := by
  have hwidth := placed.width_le
  exact Framebuffer.setColumns_eq_store fun i _ hi j _ hj =>
    placed.getPixelAddr (by omega) (by omega)

/-! ## A rectangle that is narrower than a scanline -/

/-- Rows are apart by the length of a scanline. -/
theorem pixelAt_of_row_lt {x' y' : Nat} (h : y < y') :
    fb.pixelAt x y + 4 * fb.pxPerScan + 4 * x' ≤ fb.pixelAt x' y' + 4 * x := by
  have hrows : (y + 1) * fb.pxPerScan ≤ y' * fb.pxPerScan := Nat.mul_le_mul_right _ h
  rw [Nat.succ_mul] at hrows
  simp only [pixelAt]
  omega

/-- No pixel is under a later store. -/
theorem rectAddrs_pairwise (narrow : n < fb.pxPerScan) :
    (fb.rectAddrs y rows 0 n).Pairwise fun a b => b + 8 ≤ a ∨ a + 4 ≤ b := by
  rw [rectAddrs, List.pairwise_flatMap]
  constructor
  · intro x _
    rw [columnAddrs, List.pairwise_map]
    refine (List.pairwise_lt_range' (s := y)).imp fun {j j'} hj => .inr ?_
    have hrow : fb.pixelAt x j + 4 * fb.pxPerScan + 4 * x ≤ fb.pixelAt x j' + 4 * x :=
      pixelAt_of_row_lt hj
    omega
  · -- a later column: in the same row or below it is to the right, above it ends before the line
    refine (List.pairwise_lt_range' (s := 0)).imp_of_mem fun {x x'} _ hx' hlt a ha b hb => ?_
    obtain ⟨j, -, -, rfl⟩ := mem_columnAddrs.mp ha
    obtain ⟨j', -, -, rfl⟩ := mem_columnAddrs.mp hb
    have hbound : x' < n := by
      have := List.mem_range'_1.mp hx'
      omega
    rcases Nat.lt_trichotomy j j' with h | rfl | h
    · have hrow : fb.pixelAt x j + 4 * fb.pxPerScan + 4 * x' ≤ fb.pixelAt x' j' + 4 * x :=
        pixelAt_of_row_lt h
      exact .inr (by omega)
    · simp only [pixelAt]
      exact .inr (by omega)
    · have hrow : fb.pixelAt x' j' + 4 * fb.pxPerScan + 4 * x ≤ fb.pixelAt x j + 4 * x' :=
        pixelAt_of_row_lt h
      exact .inl (by omega)

/-! ## All pixels -/

/-- What is asked of `set_all_pixels`, whatever the memory: each pixel that is seen has the colour,
and nothing but the second buffer was written. -/
structure Filled (fb : Framebuffer) (color : Nat) : Prop where
  pixels : ∀ m x y, x < fb.width → y < fb.height →
    (fb.setAllPixels m color).readLE (fb.pixelAt x y) 4 = color
  others : ∀ (m : Mem) b, b < fb.doubleFbAddr ∨ fb.doubleFbAddr + fb.bSize ≤ b →
    fb.setAllPixels m color b = m b

/-- There is no pixel, or a scanline is longer than what is seen of it. -/
def Narrow (fb : Framebuffer) : Prop := fb.width = 0 ∨ fb.height = 0 ∨ fb.width < fb.pxPerScan

theorem setAllPixels_eq_store (placed : Placed fb) :
    fb.setAllPixels m color = m.store color (fb.rectAddrs 0 fb.height 0 fb.width) :=
  placed.setColumns_eq_store (Nat.le_refl _) (by omega)

/-- The end of the buffer is under the last store, and under the high half of any store. -/
theorem setAllPixels_stop (placed : Placed fb) (hc : color < 2 ^ 32) (wide : ¬ Narrow fb) :
    fb.setAllPixels m color fb.stop = 0 := by
  have hwidth := placed.width_le
  obtain ⟨hw, hh, hge⟩ : fb.width ≠ 0 ∧ fb.height ≠ 0 ∧ ¬ fb.width < fb.pxPerScan := by
    rw [Narrow, not_or, not_or] at wide
    exact wide
  rw [setAllPixels_eq_store placed]
  apply Mem.store_eq_of_forall
  · intro a ha hle hlt
    obtain ⟨i, ⟨-, hi⟩, j, -, hj, rfl⟩ := mem_rectAddrs.mp ha
    have hpixel : fb.pixelAt i j + 4 ≤ fb.stop := pixelAt_lt_stop (by omega) (by omega)
    have hdiv : color / 256 ^ (fb.stop - fb.pixelAt i j) = 0 := by
      apply Nat.div_eq_of_lt
      calc color < 256 ^ 4 := hc
        _ ≤ 256 ^ (fb.stop - fb.pixelAt i j) := Nat.pow_le_pow_right (by decide) (by omega)
    rw [hdiv]
    rfl
  · have hlast : fb.pixelAt (fb.width - 1) (fb.height - 1) + 4 = fb.stop := by
      obtain ⟨k, hk⟩ : ∃ k, fb.height = k + 1 := ⟨fb.height - 1, by omega⟩
      simp only [pixelAt, stop, hk, Nat.succ_mul, Nat.add_sub_cancel]
      omega
    exact .inr ⟨_, mem_rectAddrs.mpr
      ⟨fb.width - 1, by omega, fb.height - 1, by omega, by omega, rfl⟩, by omega, by omega⟩

/-- **The buffer is filled, and nothing else, exactly when the width is less than a scanline** (or
there is no pixel). For every geometry with a buffer of `px_per_scan * height` pixels of four bytes,
of less than 2^32 bytes in all, and every colour of 32 bits. -/
theorem filled_iff (fb : Framebuffer) (color : Nat) (placed : Placed fb)
    (size : fb.bSize = fb.pxPerScan * fb.height * 4) (hc : color < 2 ^ 32) :
    Filled fb color ↔ Narrow fb := by
  have hstop : fb.stop = fb.doubleFbAddr + fb.bSize := by
    rw [stop, size, Nat.mul_comm fb.pxPerScan]
    omega
  constructor
  · intro filled
    by_contra wide
    -- over a memory of ones the byte after the buffer is seen to change
    have hsame := filled.others (fun _ => 1) fb.stop (.inr (by omega))
    rw [setAllPixels_stop placed hc wide] at hsame
    exact absurd hsame (by decide)
  · intro narrow
    have hwidth := placed.width_le
    constructor
    · intro m x y hx hy
      have hscan : fb.width < fb.pxPerScan := by
        unfold Narrow at narrow
        omega
      rw [setAllPixels_eq_store placed]
      refine Mem.readLE_store (by decide) hc (rectAddrs_pairwise hscan) ?_
      exact mem_rectAddrs.mpr ⟨x, by omega, y, by omega, by omega, rfl⟩
    · intro m b hb
      rw [setAllPixels_eq_store placed]
      refine Mem.store_of_outside fun a ha => ?_
      obtain ⟨i, ⟨-, hi⟩, j, -, hj, rfl⟩ := mem_rectAddrs.mp ha
      -- the pixel to the right is in the same scanline
      have hscan : i + 1 < fb.pxPerScan := by
        unfold Narrow at narrow
        omega
      have hright : fb.pixelAt (i + 1) j + 4 ≤ fb.stop := pixelAt_lt_stop hscan (by omega)
      simp only [pixelAt] at hright ⊢
      omega

/-- Two rows of two pixels, of which a scanline has `pxPerScan`. -/
def tinyFramebuffer (pxPerScan : Nat) : Framebuffer where
  bSize := pxPerScan * 2 * 4
  width := 2
  height := 2
  pxPerScan := pxPerScan
  bPerPx := 4
  fbAddr := 0x2000
  doubleFbAddr := 0x1000

/-- With one pixel more in a scanline than is seen, all is white and nothing else is written. -/
theorem narrow_filled : Filled (tinyFramebuffer 3) WHITE :=
  (filled_iff (tinyFramebuffer 3) WHITE
    ⟨rfl, by decide, by decide, by decide, by decide⟩ rfl (by decide)).mpr (.inr (.inr (by decide)))

/-- Where all of a scanline is seen, the first pixel of the second row is black after a fill with
white, and a byte past the buffer has changed. -/
theorem wide_not_filled :
    (tinyFramebuffer 2).bSize = (tinyFramebuffer 2).pxPerScan * (tinyFramebuffer 2).height * 4 ∧
      ((tinyFramebuffer 2).setAllPixels (fun _ => 1) WHITE).readLE
        ((tinyFramebuffer 2).pixelAt 0 1) 4 = BLACK ∧
      (tinyFramebuffer 2).setAllPixels (fun _ => 1) WHITE 0x1010 = 0 ∧
      ¬ Filled (tinyFramebuffer 2) WHITE := by
  have hblack : ((tinyFramebuffer 2).setAllPixels (fun _ => 1) WHITE).readLE
      ((tinyFramebuffer 2).pixelAt 0 1) 4 = BLACK := by decide +kernel
  have hpast : (tinyFramebuffer 2).setAllPixels (fun _ => 1) WHITE 0x1010 = 0 := by decide +kernel
  refine ⟨rfl, hblack, hpast, fun filled => ?_⟩
  have hwhite := filled.pixels (fun _ => 1) 0 1 (by decide) (by decide)
  exact absurd (hblack.symm.trans hwhite) (by decide)

end PrintOS.Framebuffer
