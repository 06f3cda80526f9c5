import Mathlib.Data.Nat.Bitwise
import PrintOS.Framebuffer.Framebuffer

/-!
# What drawing a glyph does to the pixels

A glyph should set the pixels of its rectangle to its two colours, by the bits of its bitmap, and
leave every other byte as it was (`Drawn`).

Each store has 8 bytes and a pixel 4, so a store also writes zeros over the pixel to the right.
Within a row the next store sets that pixel. After the last one of a row the zeros stay: four bytes
right of the glyph, in each of its rows, are black afterwards. So the glyph is drawn as it should
exactly when they were black before (`glyph_drawn_iff`).

`storeRow` is a row of stores, as memory sees it.
-/

namespace PrintOS

open ByteMemory (Mem Byte)

/-! ## Rows of stores -/

/-- Words of 8 bytes stored 4 bytes apart. -/
def storeRow (m : Mem) (a : Nat) : List Nat → Mem
  | [] => m
  | v :: vs => storeRow (m.write64 a v) (a + 4) vs

theorem storeRow_of_outside {m : Mem} {a x : Nat} {vs : List Nat}
    (h : x < a ∨ a + 4 * vs.length + 4 ≤ x) : storeRow m a vs x = m x := by
  induction vs generalizing m a with
  | nil => rfl
  | cons v vs ih =>
    rw [List.length_cons] at h
    rw [storeRow, ih (by omega), Mem.write64_of_outside (by omega)]

/-- Each word is there in its low four bytes, which the stores after it leave. -/
theorem readLE_storeRow {m : Mem} {a i v : Nat} {vs : List Nat} (hi : vs[i]? = some v)
    (small : v < 2 ^ 32) : (storeRow m a vs).readLE (a + 4 * i) 4 = v := by
  induction vs generalizing m a i with
  | nil => exact absurd hi (by simp)
  | cons w vs ih =>
    rw [storeRow]
    cases i with
    | zero =>
      obtain rfl := Option.some.inj hi
      have hread : (storeRow (m.write64 a w) (a + 4) vs).readLE a 4 = (m.write64 a w).readLE a 4 :=
        Mem.readLE_congr fun x _ hx => storeRow_of_outside (.inl hx)
      show (storeRow (m.write64 a w) (a + 4) vs).readLE a 4 = w
      rw [hread, Mem.write64, Mem.readLE_writeLE_of_le a m w (by decide)]
      exact Nat.mod_eq_of_lt small
    | succ i =>
      rw [Nat.mul_succ, Nat.add_comm (4 * i) 4, ← Nat.add_assoc]
      exact ih hi

/-- After the last word there are four zeros. -/
theorem storeRow_after {m : Mem} {a i : Nat} {vs : List Nat} (nonempty : vs ≠ [])
    (small : ∀ v ∈ vs, v < 2 ^ 32) (hi : i < 4) : storeRow m a vs (a + 4 * vs.length + i) = 0 := by
  induction vs generalizing m a with
  | nil => exact absurd rfl nonempty
  | cons v vs ih =>
    rw [storeRow]
    cases vs with
    | nil =>
      have hv := small v List.mem_cons_self
      have hdiv : v / 256 ^ (4 + i) = 0 := by
        apply Nat.div_eq_of_lt
        calc v < 256 ^ 4 := hv
          _ ≤ 256 ^ (4 + i) := Nat.pow_le_pow_right (by decide) (Nat.le_add_right 4 i)
      have hbyte := m.writeLE_apply a v (show 4 + i < 8 by omega)
      rw [hdiv] at hbyte
      show m.writeLE a 8 v (a + 4 * 1 + i) = 0
      rw [Nat.mul_one, Nat.add_assoc]
      exact hbyte
    | cons w ws =>
      have hrest := ih (m := m.write64 a v) (a := a + 4) (List.cons_ne_nil w ws)
        fun u hu => small u (List.mem_cons_of_mem _ hu)
      rw [List.length_cons, Nat.mul_succ, Nat.add_comm (4 * (w :: ws).length) 4, ← Nat.add_assoc]
      exact hrest

/-! ## Rows of a glyph -/

/-- The rows of a glyph, in the order that `print_glyph` draws them in. -/
def Glyph.rows (glyph : Glyph) (m : Mem) : List Byte :=
  (List.range glyph.height).map fun y => m (glyph.bitmap + y)

theorem Glyph.rows_length (glyph : Glyph) (m : Mem) : (glyph.rows m).length = glyph.height := by
  rw [rows, List.length_map, List.length_range]

theorem Glyph.rows_getElem? {glyph : Glyph} {m : Mem} {y : Nat} (hy : y < glyph.height) :
    (glyph.rows m)[y]? = some (m (glyph.bitmap + y)) := by
  rw [rows, List.getElem?_map, List.getElem?_range hy]
  rfl

namespace Framebuffer

variable {fb : Framebuffer} {glyph : Glyph} {m : Mem}

/-! ## Addresses -/

/-- The address of a pixel of four bytes. -/
def pixelAt (fb : Framebuffer) (x y : Nat) : Nat := fb.doubleFbAddr + 4 * (y * fb.pxPerScan + x)

/-- The end of the buffer. -/
def stop (fb : Framebuffer) : Nat := fb.doubleFbAddr + 4 * (fb.height * fb.pxPerScan)

/-- No offset needs more than 32 bits. -/
theorem getPixelAddr_of_lt {x y : Nat} (bPerPx : fb.bPerPx = 4)
    (hrow : 4 * (y * fb.pxPerScan) < 2 ^ 32) (hcol : 4 * x < 2 ^ 32)
    (memory : fb.pixelAt x y < 2 ^ 64) : fb.getPixelAddr x y = fb.pixelAt x y := by
  have hy4 : u32 (u32 (y * fb.pxPerScan) * fb.bPerPx) = 4 * (y * fb.pxPerScan) := by
    rw [bPerPx, u32_of_lt (n := y * fb.pxPerScan) (by omega), u32_of_lt (by omega), Nat.mul_comm]
  have hx4 : u32 (x * fb.bPerPx) = 4 * x := by
    rw [bPerPx, u32_of_lt (by omega), Nat.mul_comm]
  have hsum : fb.doubleFbAddr + 4 * (y * fb.pxPerScan) + 4 * x = fb.pixelAt x y := by
    rw [pixelAt]
    omega
  rw [getPixelAddr, hy4, hx4, hsum, u64_of_lt memory]

/-- The glyph's rectangle is in the framebuffer, its bitmap is not, and the buffer is in memory. -/
structure Inside (fb : Framebuffer) (glyph : Glyph) : Prop where
  bPerPx : fb.bPerPx = 4
  pxPerScan : fb.pxPerScan < 2 ^ 16
  width_le : fb.width ≤ fb.pxPerScan
  glyph_width : glyph.width ≤ 8
  right : glyph.xOff + glyph.width ≤ fb.width
  bottom : glyph.yOff + glyph.height ≤ fb.height
  colors : glyph.fgColor < 2 ^ 32 ∧ glyph.bgColor < 2 ^ 32
  memory : fb.stop + 4 ≤ 2 ^ 64
  bitmap : glyph.bitmap + glyph.height ≤ fb.doubleFbAddr ∨ fb.stop + 4 ≤ glyph.bitmap

theorem Inside.width_le_scan (inside : Inside fb glyph) : glyph.width ≤ fb.pxPerScan :=
  Nat.le_trans (Nat.le_of_add_left_le inside.right) inside.width_le

/-- The offset of each row that has a pixel is below 2^32. -/
def NoWrap (fb : Framebuffer) (glyph : Glyph) : Prop :=
  0 < glyph.width → ∀ y < glyph.height, 4 * ((glyph.yOff + y) * fb.pxPerScan) < 2 ^ 32

/-- The first pixel of a row of the glyph. -/
def rowAt (fb : Framebuffer) (glyph : Glyph) (y : Nat) : Nat :=
  fb.pixelAt glyph.xOff (glyph.yOff + y)

theorem pixelAt_row (x y : Nat) :
    fb.pixelAt (glyph.xOff + x) (glyph.yOff + y) = fb.rowAt glyph y + 4 * x := by
  simp only [rowAt, pixelAt]
  omega

theorem rowAt_succ (y : Nat) : fb.rowAt glyph (y + 1) = fb.rowAt glyph y + 4 * fb.pxPerScan := by
  simp only [rowAt, pixelAt, ← Nat.add_assoc, Nat.succ_mul]
  omega

/-- Rows are apart by the length of a scanline. -/
theorem rowAt_lt {y y' : Nat} (h : y < y') :
    fb.rowAt glyph y + 4 * fb.pxPerScan ≤ fb.rowAt glyph y' := by
  have hrows : (glyph.yOff + y + 1) * fb.pxPerScan ≤ (glyph.yOff + y') * fb.pxPerScan :=
    Nat.mul_le_mul_right _ (by omega)
  rw [Nat.succ_mul] at hrows
  simp only [rowAt, pixelAt]
  omega

/-- A row with the four bytes after it, in the buffer and those. -/
theorem row_le_stop (inside : Inside fb glyph) {y : Nat} (hy : y < glyph.height) :
    fb.doubleFbAddr ≤ fb.rowAt glyph y ∧ fb.rowAt glyph y + 4 * glyph.width ≤ fb.stop := by
  have hbottom : glyph.yOff + y + 1 ≤ fb.height := by
    have := inside.bottom
    omega
  have hrows : (glyph.yOff + y + 1) * fb.pxPerScan ≤ fb.height * fb.pxPerScan :=
    Nat.mul_le_mul_right _ hbottom
  have hright := inside.right
  have hwidth := inside.width_le
  rw [Nat.succ_mul] at hrows
  simp only [rowAt, pixelAt, stop]
  omega

theorem getPixelAddr_eq (inside : Inside fb glyph) (noWrap : NoWrap fb glyph) {x y : Nat}
    (hx : x < glyph.width) (hy : y < glyph.height) :
    fb.getPixelAddr (glyph.xOff + x) (glyph.yOff + y) = fb.rowAt glyph y + 4 * x := by
  have hrow := noWrap (Nat.zero_lt_of_lt hx) y hy
  have hstop := row_le_stop inside hy
  have hmemory := inside.memory
  have hpx := inside.pxPerScan
  have hwidth := inside.width_le
  have hright := inside.right
  rw [← pixelAt_row]
  refine getPixelAddr_of_lt inside.bPerPx hrow (by omega) ?_
  rw [pixelAt_row]
  omega

/-! ## Rows of the glyph -/

theorem color_lt (inside : Inside fb glyph) (bits : Byte) (x : Nat) :
    glyph.color bits x < 2 ^ 32 := by
  unfold Glyph.color
  split
  · exact inside.colors.1
  · exact inside.colors.2

/-- The colours of a row of the glyph, from a pixel on. -/
def rowColors (glyph : Glyph) (bits : Byte) (x n : Nat) : List Nat :=
  (List.range' x n).map (glyph.color bits)

/-- The inner loop is a row of stores, as long as it does not reach the byte of the bitmap that it
reads. -/
theorem printRow_eq_storeRow {bitmap y n x : Nat} (a : Nat)
    (haddr : ∀ i < n, fb.getPixelAddr (glyph.xOff + (x + i)) (glyph.yOff + y) = a + 4 * i)
    (apart : bitmap < a ∨ a + 4 * n + 4 ≤ bitmap) :
    fb.printRow { glyph with bitmap := bitmap } y n x m =
      storeRow m a (rowColors glyph (m bitmap) x n) := by
  induction n generalizing x a m with
  | zero => rfl
  | succ n ih =>
    have hfirst : fb.getPixelAddr (glyph.xOff + x) (glyph.yOff + y) = a := haddr 0 (Nat.succ_pos n)
    have hbits : m.write64 a (glyph.color (m bitmap) x) bitmap = m bitmap :=
      Mem.write64_of_outside (by omega)
    rw [rowColors, List.range'_succ, List.map_cons, storeRow, printRow]
    show fb.printRow _ y n (x + 1) (m.write64 (fb.getPixelAddr (glyph.xOff + x) (glyph.yOff + y))
      (glyph.color (m bitmap) x)) = _
    rw [hfirst, ih (a + 4) ?_ (by omega), hbits]
    · rfl
    · intro i hi
      have next := haddr (i + 1) (Nat.succ_lt_succ hi)
      rw [← Nat.add_assoc x, Nat.add_right_comm x i 1] at next
      rw [next]
      omega

theorem length_rowColors (bits : Byte) (x n : Nat) : (rowColors glyph bits x n).length = n := by
  rw [rowColors, List.length_map, List.length_range']

theorem getElem?_rowColors {bits : Byte} {x n : Nat} (hx : x < n) :
    (rowColors glyph bits 0 n)[x]? = some (glyph.color bits x) := by
  rw [rowColors, List.getElem?_map, List.getElem?_range' hx, Nat.zero_add, Nat.one_mul]
  rfl

/-- What one row of the glyph leaves: its pixels, four zeros after them, and everything else as it
was. -/
structure RowDrawn (fb : Framebuffer) (glyph : Glyph) (y : Nat) (bits : Byte) (m m' : Mem) : Prop where
  pixels : ∀ x < glyph.width, m'.readLE (fb.rowAt glyph y + 4 * x) 4 = glyph.color bits x
  after : 0 < glyph.width → ∀ i < 4, m' (fb.rowAt glyph y + 4 * glyph.width + i) = 0
  outside : ∀ b, b < fb.rowAt glyph y ∨ fb.rowAt glyph y + 4 * glyph.width + 4 ≤ b ∨
    glyph.width = 0 → m' b = m b

/-- One turn of the outer loop draws its row, with the bits that the bitmap has when it begins. -/
theorem printRow_drawn (inside : Inside fb glyph) (noWrap : NoWrap fb glyph) {bitmap y : Nat}
    (hy : y < glyph.height) (apart : bitmap < fb.doubleFbAddr ∨ fb.stop + 4 ≤ bitmap) :
    RowDrawn fb glyph y (m bitmap) m
      (fb.printRow { glyph with bitmap := bitmap } y glyph.width 0 m) := by
  have hrow := row_le_stop inside hy
  have hstores : fb.printRow { glyph with bitmap := bitmap } y glyph.width 0 m =
      storeRow m (fb.rowAt glyph y) (rowColors glyph (m bitmap) 0 glyph.width) := by
    refine printRow_eq_storeRow _ (fun i hi => ?_) (by omega)
    rw [Nat.zero_add]
    exact getPixelAddr_eq inside noWrap hi hy
  have hlength := @length_rowColors glyph (m bitmap) 0 glyph.width
  rw [hstores]
  refine ⟨fun x hx => ?_, fun hpos i hi => ?_, fun b hb => ?_⟩
  · exact readLE_storeRow (getElem?_rowColors hx) (color_lt inside _ x)
  · have hne : rowColors glyph (m bitmap) 0 glyph.width ≠ [] := by
      intro h
      rw [h] at hlength
      exact absurd hlength (Nat.ne_of_lt hpos)
    have hsmall : ∀ v ∈ rowColors glyph (m bitmap) 0 glyph.width, v < 2 ^ 32 := by
      intro v hv
      obtain ⟨x, -, rfl⟩ := List.mem_map.mp hv
      exact color_lt inside _ x
    have hzero := storeRow_after (m := m) (a := fb.rowAt glyph y) hne hsmall hi
    rwa [hlength] at hzero
  · rcases hb with hb | hb | hb
    · exact storeRow_of_outside (.inl hb)
    · exact storeRow_of_outside (.inr (by rwa [hlength]))
    · rw [hb]
      rfl

/-- The same for some rows, one below the other. Where the glyph is as wide as a scanline the zeros
after a row are under the next one. -/
structure RowsDrawn (fb : Framebuffer) (glyph : Glyph) (n y bitmap : Nat) (m m' : Mem) : Prop where
  pixels : ∀ j < n, ∀ x < glyph.width,
    m'.readLE (fb.rowAt glyph (y + j) + 4 * x) 4 = glyph.color (m (bitmap + j)) x
  after : 0 < glyph.width → ∀ j < n, (j + 1 < n → glyph.width < fb.pxPerScan) → ∀ i < 4,
    m' (fb.rowAt glyph (y + j) + 4 * glyph.width + i) = 0
  outside : ∀ b, (∀ j < n, b < fb.rowAt glyph (y + j) ∨
    fb.rowAt glyph (y + j) + 4 * glyph.width + 4 ≤ b ∨ glyph.width = 0) → m' b = m b

/-- One row, and then the rest. -/
theorem RowsDrawn.cons {n y bitmap : Nat} {m₁ m₂ : Mem} (width_le : glyph.width ≤ fb.pxPerScan)
    (first : RowDrawn fb glyph y (m bitmap) m m₁)
    (rest : RowsDrawn fb glyph n (y + 1) (bitmap + 1) m₁ m₂)
    (same : ∀ j < n, m₁ (bitmap + 1 + j) = m (bitmap + 1 + j)) :
    RowsDrawn fb glyph (n + 1) y bitmap m m₂ := by
  -- what lies before the second row is left by the rows from there on
  have above : ∀ b, b < fb.rowAt glyph (y + 1) → m₂ b = m₁ b := by
    intro b hb
    refine rest.outside b fun j _ => .inl ?_
    rcases Nat.eq_zero_or_pos j with rfl | hj
    · exact hb
    · have hrow : fb.rowAt glyph (y + 1) + 4 * fb.pxPerScan ≤ fb.rowAt glyph (y + 1 + j) :=
        rowAt_lt (by omega)
      omega
  have hnext : fb.rowAt glyph (y + 1) = fb.rowAt glyph y + 4 * fb.pxPerScan := rowAt_succ y
  refine ⟨?_, ?_, ?_⟩
  · intro j hj x hx
    cases j with
    | zero =>
      rw [Nat.add_zero, Nat.add_zero, ← first.pixels x hx]
      exact Mem.readLE_congr fun b _ hb => above b (by omega)
    | succ j =>
      have hpixel := rest.pixels j (Nat.lt_of_succ_lt_succ hj) x hx
      rw [same j (Nat.lt_of_succ_lt_succ hj)] at hpixel
      rw [Nat.add_comm j 1, ← Nat.add_assoc, ← Nat.add_assoc]
      exact hpixel
  · intro hpos j hj narrow i hi
    cases j with
    | zero =>
      rw [Nat.add_zero]
      rcases Nat.eq_zero_or_pos n with rfl | hn
      · rw [rest.outside _ fun j hj => absurd hj (Nat.not_lt_zero j)]
        exact first.after hpos i hi
      · have hnarrow := narrow (by omega)
        rw [above _ (by omega)]
        exact first.after hpos i hi
    | succ j =>
      have hzero := rest.after hpos j (Nat.lt_of_succ_lt_succ hj) (fun h => narrow (by omega)) i hi
      rw [Nat.add_comm j 1, ← Nat.add_assoc]
      exact hzero
  · intro b hb
    have hfirst := hb 0 (Nat.succ_pos n)
    rw [rest.outside b fun j hj => ?_, first.outside b hfirst]
    have hrow := hb (j + 1) (Nat.succ_lt_succ hj)
    rwa [Nat.add_comm j 1, ← Nat.add_assoc] at hrow

theorem printRows_drawn (inside : Inside fb glyph) (noWrap : NoWrap fb glyph) {n y bitmap : Nat}
    (hy : y + n ≤ glyph.height)
    (apart : bitmap + n ≤ fb.doubleFbAddr ∨ fb.stop + 4 ≤ bitmap) :
    RowsDrawn fb glyph n y bitmap m (fb.printRows n y { glyph with bitmap := bitmap } m).1 := by
  induction n generalizing y bitmap m with
  | zero =>
    exact ⟨fun j hj => absurd hj (Nat.not_lt_zero j), fun _ j hj => absurd hj (Nat.not_lt_zero j),
      fun _ _ => rfl⟩
  | succ n ih =>
    have hrow : y < glyph.height := by omega
    have hbytes := row_le_stop inside hrow
    have first : RowDrawn fb glyph y (m bitmap) m
        (fb.printRow { glyph with bitmap := bitmap } y glyph.width 0 m) :=
      printRow_drawn inside noWrap hrow (by omega)
    refine .cons inside.width_le_scan first (ih (by omega) (by omega)) fun j hj => first.outside _ ?_
    omega

/-! ## The glyph -/

/-- What is asked of `print_glyph`: the pixels of the rectangle have the colours that the bitmap
asks for, and every other byte is as it was. -/
structure Drawn (fb : Framebuffer) (glyph : Glyph) (m m' : Mem) : Prop where
  pixels : ∀ x < glyph.width, ∀ y < glyph.height,
    m'.readLE (fb.pixelAt (glyph.xOff + x) (glyph.yOff + y)) 4 =
      if (m (glyph.bitmap + y)).getLsbD (7 - x) then glyph.fgColor else glyph.bgColor
  others : ∀ b, (∀ x < glyph.width, ∀ y < glyph.height,
    ¬ (fb.pixelAt (glyph.xOff + x) (glyph.yOff + y) ≤ b ∧
      b < fb.pixelAt (glyph.xOff + x) (glyph.yOff + y) + 4)) → m' b = m b

/-- The four bytes right of each row of the glyph are zero, unless they are under its next row. -/
def BlackRight (fb : Framebuffer) (glyph : Glyph) (m : Mem) : Prop :=
  0 < glyph.width → ∀ y < glyph.height, (y + 1 < glyph.height → glyph.width < fb.pxPerScan) →
    ∀ i < 4, m (fb.pixelAt (glyph.xOff + glyph.width) (glyph.yOff + y) + i) = 0

theorem color_eq (bits : Byte) {x : Nat} (hx : x < 8) :
    glyph.color bits x = if bits.getLsbD (7 - x) then glyph.fgColor else glyph.bgColor := by
  have hmask : (1 <<< 7) >>> x = 2 ^ (7 - x) := by
    rw [Nat.shiftRight_eq_div_pow, ← Nat.pow_div (by omega) (by decide)]
    rfl
  have hbit : bits.toNat &&& ((1 <<< 7) >>> x) > 0 ↔ bits.getLsbD (7 - x) = true := by
    rw [hmask, Nat.and_two_pow, BitVec.getLsbD]
    cases bits.toNat.testBit (7 - x) with
    | true => exact iff_of_true (by rw [Bool.toNat_true, Nat.one_mul]; exact Nat.two_pow_pos _) rfl
    | false => exact iff_of_false (by simp) Bool.false_ne_true
  rw [Glyph.color]
  exact if_congr hbit rfl rfl

/-- The rows are what is drawn: each of their bits is the colour of a pixel. -/
theorem printGlyph_pixel {x y : Nat} {bits : Byte} (inside : Inside fb glyph)
    (noWrap : NoWrap fb glyph) (hx : x < glyph.width) (hbits : (glyph.rows m)[y]? = some bits) :
    (fb.printGlyph glyph m).1.readLE (fb.pixelAt (glyph.xOff + x) (glyph.yOff + y)) 4 =
      if bits.getLsbD (7 - x) then glyph.fgColor else glyph.bgColor := by
  have hy : y < glyph.height := by
    have hlen := (List.getElem?_eq_some_iff.mp hbits).1
    rwa [Glyph.rows_length] at hlen
  rw [Glyph.rows_getElem? hy] at hbits
  have drawn : RowsDrawn fb glyph glyph.height 0 glyph.bitmap m (fb.printGlyph glyph m).1 :=
    printRows_drawn inside noWrap (by omega) inside.bitmap
  have hpixel := drawn.pixels y hy x hx
  rw [Nat.zero_add, Option.some.inj hbits] at hpixel
  rw [pixelAt_row, hpixel]
  exact color_eq _ (Nat.lt_of_lt_of_le hx inside.glyph_width)

/-- The four bytes right of a row are in no pixel of the rectangle, so they were black before. -/
theorem RowsDrawn.blackRight {m' : Mem} (rows : RowsDrawn fb glyph glyph.height 0 glyph.bitmap m m')
    (inside : Inside fb glyph) (drawn : Drawn fb glyph m m') : BlackRight fb glyph m := by
  have hwidth := inside.width_le_scan
  intro hpos y hy narrow i hi
  rw [pixelAt_row]
  have hzero := rows.after hpos y hy narrow i hi
  rw [Nat.zero_add] at hzero
  rw [← drawn.others _ ?_, hzero]
  intro x hx y' hy'
  rw [pixelAt_row]
  rcases Nat.lt_trichotomy y y' with h | rfl | h
  · have hrow : fb.rowAt glyph y + 4 * fb.pxPerScan ≤ fb.rowAt glyph y' := rowAt_lt h
    have hnarrow := narrow (by omega)
    omega
  · omega
  · have hrow : fb.rowAt glyph y' + 4 * fb.pxPerScan ≤ fb.rowAt glyph y := rowAt_lt h
    omega

/-- Where the bytes right of the rows were black before, nothing else has changed. -/
theorem RowsDrawn.drawn {m' : Mem} (rows : RowsDrawn fb glyph glyph.height 0 glyph.bitmap m m')
    (inside : Inside fb glyph) (black : BlackRight fb glyph m) : Drawn fb glyph m m' := by
  have hwidth := inside.width_le_scan
  refine ⟨?_, ?_⟩
  · intro x hx y hy
    have hpixel := rows.pixels y hy x hx
    rw [Nat.zero_add] at hpixel
    rw [pixelAt_row, hpixel]
    exact color_eq _ (Nat.lt_of_lt_of_le hx inside.glyph_width)
  · intro b hb
    by_cases hrows : ∀ j < glyph.height, b < fb.rowAt glyph (0 + j) ∨
        fb.rowAt glyph (0 + j) + 4 * glyph.width + 4 ≤ b ∨ glyph.width = 0
    · exact rows.outside b hrows
    -- a byte of a row, or right of it, that is in no pixel is right of it
    push Not at hrows
    obtain ⟨y, hy, hlo, hhi, hne⟩ := hrows
    rw [Nat.zero_add] at hlo hhi
    have hafter : fb.rowAt glyph y + 4 * glyph.width ≤ b := by
      by_contra hlt
      have hpixel := hb ((b - fb.rowAt glyph y) / 4) (by omega) y hy
      rw [pixelAt_row] at hpixel
      omega
    have narrow : y + 1 < glyph.height → glyph.width < fb.pxPerScan := by
      intro hnext
      by_contra hwide
      have hpixel := hb 0 (by omega) (y + 1) hnext
      rw [pixelAt_row, rowAt_succ] at hpixel
      omega
    obtain ⟨i, rfl⟩ : ∃ i, b = fb.rowAt glyph y + 4 * glyph.width + i :=
      ⟨b - (fb.rowAt glyph y + 4 * glyph.width), by omega⟩
    have hpos : 0 < glyph.width := by omega
    have hzero := rows.after hpos y hy narrow i (by omega)
    have hblack := black hpos y hy narrow i (by omega)
    rw [pixelAt_row] at hblack
    rw [Nat.zero_add] at hzero
    rw [hzero, hblack]

/-- **A glyph is drawn as it should exactly when the four bytes right of each of its rows were
black.** For every rectangle in the framebuffer whose rows are below 2^32 bytes, every bitmap
outside of the buffer and every two colours. -/
theorem glyph_drawn_iff (fb : Framebuffer) (glyph : Glyph) (m : Mem) (inside : Inside fb glyph)
    (noWrap : NoWrap fb glyph) :
    Drawn fb glyph m (fb.printGlyph glyph m).1 ↔ BlackRight fb glyph m := by
  have rows : RowsDrawn fb glyph glyph.height 0 glyph.bitmap m (fb.printGlyph glyph m).1 :=
    printRows_drawn inside noWrap (by omega) inside.bitmap
  exact ⟨rows.blackRight inside, rows.drawn inside⟩

/-- A framebuffer of two cells, and one row of a glyph for the first cell. -/
def smallFramebuffer : Framebuffer where
  bSize := 64
  width := 16
  height := 1
  pxPerScan := 16
  bPerPx := 4
  fbAddr := 0x2000
  doubleFbAddr := 0x1000

def smallGlyph : Glyph where
  bitmap := 0x100
  xOff := 0
  yOff := 0
  height := 1
  width := 8
  fgColor := 0xffffff
  bgColor := 0

theorem small_inside : Inside smallFramebuffer smallGlyph where
  bPerPx := rfl
  pxPerScan := by decide
  width_le := by decide
  glyph_width := by decide
  right := by decide
  bottom := by decide
  colors := by decide
  memory := by decide
  bitmap := by decide

theorem small_noWrap : NoWrap smallFramebuffer smallGlyph := by
  unfold NoWrap
  decide

/-- On a black buffer the glyph is drawn as it should. -/
theorem black_glyph_drawn : Drawn smallFramebuffer smallGlyph (fun _ => 0)
    (smallFramebuffer.printGlyph smallGlyph fun _ => 0).1 :=
  (glyph_drawn_iff _ _ _ small_inside small_noWrap).mpr fun _ _ _ _ _ _ => rfl

/-- Where the cell to the right has a white pixel beside the glyph, that pixel is lost. -/
theorem right_pixel_lost : Inside smallFramebuffer smallGlyph ∧ NoWrap smallFramebuffer smallGlyph ∧
    ¬ Drawn smallFramebuffer smallGlyph (Mem.copy (fun _ => 0) 0x1020 [0xff, 0xff, 0xff])
      (smallFramebuffer.printGlyph smallGlyph
        (Mem.copy (fun _ => 0) 0x1020 [0xff, 0xff, 0xff])).1 := by
  refine ⟨small_inside, small_noWrap, fun drawn => ?_⟩
  have same := drawn.others 0x1020 (by decide)
  exact absurd same (by decide +kernel)

end Framebuffer

end PrintOS
