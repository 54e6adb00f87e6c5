import Mathlib.Logic.Function.Basic
import Toystar.Kernel.Lock

/-!
# The terminal

`kernel/video.cpp` and `tty::write`: characters of 8 by 16 pixels at a cursor that moves by
10 to the right and by 18 down.  Every store to the framebuffer is checked against the
screen, and every read of the font against its table.

Only a character that is printed moves the cursor back onto the screen when it has left it;
a newline does not, and a glyph is higher than what need be left below the cursor.  The
output stays on the screen exactly when each glyph fits where the cursor is, and each
character is one of the 128 that are not negative (`terminal_iff`).
-/

namespace Toystar.Drivers

open Toystar.Kernel

/-- The statics of `video.cpp` but for `bpp`, which nothing reads. -/
structure Screen where
  frameBuffer : Nat → UInt32
  pitch : UInt16
  width : UInt16
  height : UInt16
  cursorX : UInt16
  cursorY : UInt16

namespace Screen

/-! ## The functions -/

/-- `pitch / 4`. -/
def stride (s : Screen) : Nat := s.pitch.toNat / 4

/-- `frameBuffer[y * (pitch / 4) + x] = color;` -/
def store (s : Screen) (y x : Nat) (color : UInt32) : Except Fault Screen :=
  if y * s.stride + x < s.height.toNat * s.stride ∧ x < s.width.toNat then
    .ok { s with frameBuffer := Function.update s.frameBuffer (y * s.stride + x) color }
  else .error .outOfBounds

/-- The inner loop of `rect`, for `n` pixels from the cursor on. -/
def rectRow (color : UInt32) (s : Screen) : Nat → Except Fault Screen
  | 0 => .ok s
  | n + 1 => do
      let s ← s.store s.cursorY.toNat s.cursorX.toNat color
      rectRow color { s with cursorX := s.cursorX + 1 } n

/-- The outer loop of `rect`, for `n` rows from the cursor on. -/
def rectRows (x : UInt16) (sizeX : Nat) (color : UInt32) (s : Screen) :
    Nat → Except Fault Screen
  | 0 => .ok s
  | n + 1 => do
      let s ← rectRow color s sizeX
      rectRows x sizeX color { s with cursorX := x, cursorY := s.cursorY + 1 } n

/-- `rect`. -/
def rect (s : Screen) (x y sizeX sizeY : UInt16) (color : UInt32) : Except Fault Screen := do
  let s ← rectRows x sizeX.toNat color { s with cursorX := x, cursorY := y } sizeY.toNat
  return { s with cursorX := 0, cursorY := 0 }

/-- `clear_screen`. -/
def clearScreen (s : Screen) (color : UInt32) : Except Fault Screen :=
  s.rect 0 0 s.width s.height color

/-- `increment_cursor_x`. -/
def incrementCursorX (s : Screen) (amount : UInt16) : Except Fault Screen :=
  let s := { s with cursorX := s.cursorX + amount }
  let s := if s.cursorX ≥ s.width then { s with cursorX := 0, cursorY := s.cursorY + 18 } else s
  if s.cursorY ≥ s.height then s.clearScreen 0x8075FF else .ok s

/-- `font[i]` of the table of 4096 bytes. -/
def fontByte (font : Nat → UInt8) (i : Nat) : Except Fault UInt8 :=
  if i < 4096 then .ok (font i) else .error .outOfBounds

/-- `(size_t)c * 16`, where `char` is signed. -/
def glyphOffset (c : UInt8) : Nat := (c.toInt8.toInt * 16 % 2 ^ 64).toNat

/-- The body of the loops of `print_char`. -/
def drawPixel (font : Nat → UInt8) (offset : Nat) (color : UInt32) (b : Nat) (s : Screen)
    (j : Nat) : Except Fault Screen := do
  let bits ← fontByte font ((offset + b) % 2 ^ 64)
  if bits.toNat >>> (7 - j) &&& 1 = 1 then
    s.store (b + s.cursorY.toNat) (j + s.cursorX.toNat) color
  else return s

/-- The inner loop. -/
def drawRow (font : Nat → UInt8) (offset : Nat) (color : UInt32) (s : Screen) (b : Nat) :
    Except Fault Screen := (List.range 8).foldlM (drawPixel font offset color b) s

/-- `print_char`. -/
def printChar (font : Nat → UInt8) (s : Screen) (c : UInt8) (color : UInt32) :
    Except Fault Screen := do
  if c = 10 then return { s with cursorY := s.cursorY + 18, cursorX := 0 }
  let s ← (List.range 16).foldlM (drawRow font (glyphOffset c) color) s
  s.incrementCursorX 10

/-- `tty::write`. -/
def write (font : Nat → UInt8) (s : Screen) (buffer : List UInt8) : Except Fault Screen :=
  buffer.foldlM (fun s c => printChar font s c 0xffffff) s

/-! ## Geometry -/

/-- A screen of at least one character, in rows that are long enough. -/
structure Fits (s : Screen) : Prop where
  width : 10 ≤ s.width.toNat
  height : 18 ≤ s.height.toNat
  stride : s.width.toNat ≤ s.stride

/-- Two screens of one geometry. -/
structure SameSize (s s' : Screen) : Prop where
  pitch : s'.pitch = s.pitch
  width : s'.width = s.width
  height : s'.height = s.height

/-- Only pixels differ. -/
structure Same (s s' : Screen) : Prop extends SameSize s s' where
  cursorX : s'.cursorX = s.cursorX
  cursorY : s'.cursorY = s.cursorY

variable {s s' : Screen} {font : Nat → UInt8} {color : UInt32} {c : UInt8} {x y n : Nat}

theorem SameSize.trans {s'' : Screen} (h : s.SameSize s') (h' : s'.SameSize s'') :
    s.SameSize s'' :=
  ⟨h'.pitch.trans h.pitch, h'.width.trans h.width, h'.height.trans h.height⟩

theorem Same.refl (s : Screen) : s.Same s := ⟨⟨rfl, rfl, rfl⟩, rfl, rfl⟩

theorem Same.trans {s'' : Screen} (h : s.Same s') (h' : s'.Same s'') : s.Same s'' :=
  ⟨h.toSameSize.trans h'.toSameSize, h'.cursorX.trans h.cursorX, h'.cursorY.trans h.cursorY⟩

theorem SameSize.fits (h : s.SameSize s') (hs : s.Fits) : s'.Fits := by
  obtain ⟨hwidth, hheight, hstride⟩ := hs
  rw [stride, ← h.pitch, ← h.width] at hstride
  exact ⟨by rw [h.width]; exact hwidth, by rw [h.height]; exact hheight, hstride⟩

/-- A pixel of the screen is stored, and no other. -/
theorem store_of_lt (hs : s.Fits) (hx : x < s.width.toNat) (hy : y < s.height.toNat)
    (color : UInt32) : ∃ s', s.store y x color = .ok s' ∧ s.Same s' := by
  have hindex : y * s.stride + x < s.height.toNat * s.stride := by
    calc y * s.stride + x < y * s.stride + s.stride :=
          Nat.add_lt_add_left (lt_of_lt_of_le hx hs.stride) _
      _ = (y + 1) * s.stride := (Nat.succ_mul _ _).symm
      _ ≤ s.height.toNat * s.stride := Nat.mul_le_mul_right _ hy
  exact ⟨_, if_pos ⟨hindex, hx⟩, ⟨rfl, rfl, rfl⟩, rfl, rfl⟩

theorem store_of_not_lt (h : ¬(x < s.width.toNat ∧ y < s.height.toNat)) (color : UInt32) :
    s.store y x color = .error .outOfBounds := by
  refine if_neg ?_
  rintro ⟨hindex, hx⟩
  have hy : s.height.toNat ≤ y := by
    by_contra hlt
    exact h ⟨hx, by omega⟩
  have hle : s.height.toNat * s.stride ≤ y * s.stride := Nat.mul_le_mul_right _ hy
  omega

/-! ## Clearing -/

theorem rectRow_ok (color : UInt32) (n : Nat) {s : Screen} (hs : s.Fits)
    (hx : s.cursorX.toNat + n ≤ s.width.toNat) (hy : s.cursorY.toNat < s.height.toNat) :
    ∃ s', rectRow color s n = .ok s' ∧ s.SameSize s' ∧ s'.cursorY = s.cursorY := by
  induction n generalizing s with
  | zero => exact ⟨s, rfl, ⟨rfl, rfl, rfl⟩, rfl⟩
  | succ n ih =>
      have hwidth := s.width.toNat_lt
      obtain ⟨s₁, hstore, hsame⟩ := store_of_lt hs (show s.cursorX.toNat < _ by omega) hy color
      have hnext : (s₁.cursorX + 1).toNat = s.cursorX.toNat + 1 := by
        rw [hsame.cursorX, UInt16.toNat_add]
        exact Nat.mod_eq_of_lt (show s.cursorX.toNat + 1 < 2 ^ 16 by omega)
      have hfits := hsame.fits hs
      obtain ⟨s', hret, hsize, hcursor⟩ := ih (s := { s₁ with cursorX := s₁.cursorX + 1 })
        ⟨hfits.width, hfits.height, hfits.stride⟩
        (by show (s₁.cursorX + 1).toNat + n ≤ s₁.width.toNat; rw [hnext, hsame.width]; omega)
        (by show s₁.cursorY.toNat < s₁.height.toNat; rw [hsame.cursorY, hsame.height]; exact hy)
      refine ⟨s', ?_, hsame.toSameSize.trans ⟨hsize.pitch, hsize.width, hsize.height⟩,
        hcursor.trans hsame.cursorY⟩
      rw [rectRow, hstore, ok_bind, hret]

theorem rectRows_ok (x : UInt16) (color : UInt32) {sizeX : Nat} (n : Nat) {s : Screen}
    (hs : s.Fits) (hcursor : s.cursorX = x) (hx : x.toNat + sizeX ≤ s.width.toNat)
    (hy : s.cursorY.toNat + n ≤ s.height.toNat) :
    ∃ s', rectRows x sizeX color s n = .ok s' ∧ s.SameSize s' := by
  induction n generalizing s with
  | zero => exact ⟨s, rfl, ⟨rfl, rfl, rfl⟩⟩
  | succ n ih =>
      have hheight := s.height.toNat_lt
      obtain ⟨s₁, hrow, hsize, hcursorY⟩ := rectRow_ok color sizeX hs
        (by rw [hcursor]; exact hx) (by omega)
      have hnext : (s₁.cursorY + 1).toNat = s.cursorY.toNat + 1 := by
        rw [hcursorY, UInt16.toNat_add]
        exact Nat.mod_eq_of_lt (show s.cursorY.toNat + 1 < 2 ^ 16 by omega)
      have hfits := hsize.fits hs
      obtain ⟨s', hret, hsize'⟩ :=
        ih (s := { s₁ with cursorX := x, cursorY := s₁.cursorY + 1 })
          ⟨hfits.width, hfits.height, hfits.stride⟩ rfl
          (by show _ ≤ s₁.width.toNat; rw [hsize.width]; exact hx)
          (by
            show (s₁.cursorY + 1).toNat + n ≤ s₁.height.toNat
            rw [hnext, hsize.height]
            omega)
      refine ⟨s', ?_, hsize.trans ⟨hsize'.pitch, hsize'.width, hsize'.height⟩⟩
      rw [rectRows, hrow, ok_bind, hret]

/-- Clearing writes the screen only, and leaves the cursor in its corner. -/
theorem clearScreen_ok (hs : s.Fits) (color : UInt32) :
    ∃ s', s.clearScreen color = .ok s' ∧
      ({ s with cursorX := 0, cursorY := 0 } : Screen).Same s' := by
  obtain ⟨s', hrows, hsize⟩ := rectRows_ok 0 color s.height.toNat
    (s := { s with cursorX := 0, cursorY := 0 }) ⟨hs.width, hs.height, hs.stride⟩ rfl
    (by show 0 + s.width.toNat ≤ s.width.toNat; omega)
    (by show 0 + s.height.toNat ≤ s.height.toNat; omega)
  refine ⟨{ s' with cursorX := 0, cursorY := 0 }, ?_,
    ⟨hsize.pitch, hsize.width, hsize.height⟩, rfl, rfl⟩
  rw [clearScreen, rect, hrows]
  rfl

/-! ## The cursor -/

/-- What `increment_cursor_x` does to the cursor. -/
def advanceCursor (s : Screen) (amount : UInt16) : Screen :=
  let s := { s with cursorX := s.cursorX + amount }
  let s := if s.cursorX ≥ s.width then { s with cursorX := 0, cursorY := s.cursorY + 18 } else s
  if s.cursorY ≥ s.height then { s with cursorX := 0, cursorY := 0 } else s

/-- What `print_char` does to the cursor. -/
def moveCursor (s : Screen) (c : UInt8) : Screen :=
  if c = 10 then { s with cursorY := s.cursorY + 18, cursorX := 0 } else s.advanceCursor 10

theorem sameSize_advanceCursor (s : Screen) (amount : UInt16) :
    s.SameSize (s.advanceCursor amount) := by
  rw [advanceCursor]
  dsimp only
  split_ifs <;> exact ⟨rfl, rfl, rfl⟩

theorem sameSize_moveCursor (s : Screen) (c : UInt8) : s.SameSize (s.moveCursor c) := by
  rw [moveCursor]
  split
  · exact ⟨rfl, rfl, rfl⟩
  · exact s.sameSize_advanceCursor 10

/-- The pixels do not matter. -/
theorem Same.advanceCursor (h : s.Same s') (amount : UInt16) :
    (s.advanceCursor amount).Same (s'.advanceCursor amount) := by
  obtain ⟨⟨hpitch, hwidth, hheight⟩, hx, hy⟩ := h
  rw [Screen.advanceCursor, Screen.advanceCursor]
  dsimp only
  rw [hwidth, hheight, hx, hy]
  split_ifs <;> exact ⟨⟨hpitch, rfl, rfl⟩, rfl, rfl⟩

theorem Same.moveCursor (h : s.Same s') (c : UInt8) :
    (s.moveCursor c).Same (s'.moveCursor c) := by
  rw [Screen.moveCursor, Screen.moveCursor]
  split
  · exact ⟨⟨h.pitch, h.width, h.height⟩, rfl, by dsimp only; rw [h.cursorY]⟩
  · exact h.advanceCursor 10

theorem incrementCursorX_ok (hs : s.Fits) (amount : UInt16) :
    ∃ s', s.incrementCursorX amount = .ok s' ∧ (s.advanceCursor amount).Same s' := by
  have hmoved : ∀ s₁ : Screen, s.SameSize s₁ →
      ∃ s', (if s₁.cursorY ≥ s₁.height then s₁.clearScreen 0x8075FF else .ok s₁) = .ok s' ∧
        (if s₁.cursorY ≥ s₁.height then { s₁ with cursorX := 0, cursorY := 0 } else s₁).Same
          s' := by
    intro s₁ hsize
    split
    · exact clearScreen_ok (hsize.fits hs) 0x8075FF
    · exact ⟨s₁, rfl, .refl s₁⟩
  rw [incrementCursorX, advanceCursor]
  dsimp only
  by_cases hwrap : s.cursorX + amount ≥ s.width
  · rw [if_pos hwrap]
    exact hmoved _ ⟨rfl, rfl, rfl⟩
  · rw [if_neg hwrap]
    exact hmoved _ ⟨rfl, rfl, rfl⟩

/-! ## Glyphs -/

/-- A loop whose body draws or leaves its bounds by its index alone. -/
theorem foldlM_same {β : Type} {f : Screen → β → Except Fault Screen} {P : β → Prop}
    (hok : ∀ s₁ x, s.Same s₁ → P x → ∃ s', f s₁ x = .ok s' ∧ s₁.Same s')
    (herror : ∀ s₁ x, s.Same s₁ → ¬P x → f s₁ x = .error .outOfBounds) (xs : List β)
    {s₁ : Screen} (hs : s.Same s₁) :
    ((∀ x ∈ xs, P x) → ∃ s', xs.foldlM f s₁ = .ok s' ∧ s₁.Same s') ∧
      ((¬∀ x ∈ xs, P x) → xs.foldlM f s₁ = .error .outOfBounds) := by
  induction xs generalizing s₁ with
  | nil => exact ⟨fun _ => ⟨s₁, rfl, .refl s₁⟩, fun hnot => absurd (by simp) hnot⟩
  | cons x xs ih =>
      rw [List.foldlM_cons, List.forall_mem_cons]
      by_cases hx : P x
      · obtain ⟨s₂, hret, hsame⟩ := hok s₁ x hs hx
        obtain ⟨hrest, hrest'⟩ := ih (hs.trans hsame)
        rw [hret, ok_bind]
        constructor
        · rintro ⟨_, hxs⟩
          obtain ⟨s', hall, hsame'⟩ := hrest hxs
          exact ⟨s', hall, hsame.trans hsame'⟩
        · exact fun hnot => hrest' fun hxs => hnot ⟨hx, hxs⟩
      · rw [herror s₁ x hs hx, error_bind]
        exact ⟨fun h => absurd h.1 hx, fun _ => rfl⟩

/-- The bit of the font that says whether a pixel is drawn. -/
def Lit (font : Nat → UInt8) (i j : Nat) : Prop := (font i).toNat >>> (7 - j) &&& 1 = 1

/-- The font is read inside its table, and the pixel, if it is drawn, is on the screen. -/
def PixelInside (font : Nat → UInt8) (s : Screen) (offset b j : Nat) : Prop :=
  (offset + b) % 2 ^ 64 < 4096 ∧ (Lit font ((offset + b) % 2 ^ 64) j →
    s.cursorX.toNat + j < s.width.toNat ∧ s.cursorY.toNat + b < s.height.toNat)

theorem drawPixel_ok {s₁ : Screen} {offset b j : Nat} (hs : s.Fits) (hsame : s.Same s₁)
    (hin : PixelInside font s offset b j) :
    ∃ s', drawPixel font offset color b s₁ j = .ok s' ∧ s₁.Same s' := by
  have hread : fontByte font ((offset + b) % 2 ^ 64) = .ok (font ((offset + b) % 2 ^ 64)) :=
    if_pos hin.1
  rw [drawPixel, hread, ok_bind]
  by_cases hlit : Lit font ((offset + b) % 2 ^ 64) j
  · obtain ⟨hx, hy⟩ := hin.2 hlit
    rw [Lit] at hlit
    rw [if_pos hlit]
    rw [← hsame.width, ← hsame.cursorX] at hx
    rw [← hsame.height, ← hsame.cursorY] at hy
    exact store_of_lt (hsame.fits hs) (by omega) (by omega) color
  · rw [Lit] at hlit
    rw [if_neg hlit]
    exact ⟨s₁, rfl, .refl s₁⟩

theorem drawPixel_error {s₁ : Screen} {offset b j : Nat} (hsame : s.Same s₁)
    (hout : ¬PixelInside font s offset b j) :
    drawPixel font offset color b s₁ j = .error .outOfBounds := by
  rw [drawPixel]
  by_cases hread : (offset + b) % 2 ^ 64 < 4096
  · have hlit : Lit font ((offset + b) % 2 ^ 64) j := by
      by_contra hnot
      exact hout ⟨hread, fun hlit => absurd hlit hnot⟩
    have hbyte : fontByte font ((offset + b) % 2 ^ 64) =
        .ok (font ((offset + b) % 2 ^ 64)) := if_pos hread
    rw [Lit] at hlit
    rw [hbyte, ok_bind, if_pos hlit]
    refine store_of_not_lt ?_ color
    rintro ⟨hx, hy⟩
    rw [hsame.width, hsame.cursorX] at hx
    rw [hsame.height, hsame.cursorY] at hy
    exact hout ⟨hread, fun _ => ⟨by omega, by omega⟩⟩
  · rw [fontByte, if_neg hread, error_bind]

/-- The loops draw the glyph if each of its pixels is inside, and else leave the bounds. -/
theorem drawGlyph (font : Nat → UInt8) (hs : s.Fits) (offset : Nat) (color : UInt32) :
    ((∀ b ∈ List.range 16, ∀ j ∈ List.range 8, PixelInside font s offset b j) →
      ∃ s', (List.range 16).foldlM (drawRow font offset color) s = .ok s' ∧ s.Same s') ∧
    ((¬∀ b ∈ List.range 16, ∀ j ∈ List.range 8, PixelInside font s offset b j) →
      (List.range 16).foldlM (drawRow font offset color) s = .error .outOfBounds) := by
  have hrow : ∀ b (s₁ : Screen), s.Same s₁ →
      ((∀ j ∈ List.range 8, PixelInside font s offset b j) →
        ∃ s', drawRow font offset color s₁ b = .ok s' ∧ s₁.Same s') ∧
      ((¬∀ j ∈ List.range 8, PixelInside font s offset b j) →
        drawRow font offset color s₁ b = .error .outOfBounds) := by
    intro b s₁ hsame
    exact foldlM_same (fun _ _ hsame => drawPixel_ok hs hsame)
      (fun _ _ hsame => drawPixel_error hsame) (List.range 8) hsame
  exact foldlM_same (fun s₁ b hsame => (hrow b s₁ hsame).1)
    (fun s₁ b hsame => (hrow b s₁ hsame).2) (List.range 16) (.refl s)

/-- What is on the screen: a newline, and a character that is not negative when each pixel of
its glyph is on the screen at the cursor. -/
def OnScreen (font : Nat → UInt8) (s : Screen) (c : UInt8) : Prop :=
  c = 10 ∨ (c.toNat < 128 ∧ ∀ b < 16, ∀ j < 8, Lit font (c.toNat * 16 + b) j →
    s.cursorX.toNat + j < s.width.toNat ∧ s.cursorY.toNat + b < s.height.toNat)

/-- The glyph of a negative character is before the table. -/
theorem glyphOffset_cases (c : UInt8) :
    (c.toNat < 128 ∧ glyphOffset c = c.toNat * 16) ∨
      (128 ≤ c.toNat ∧ glyphOffset c = 2 ^ 64 - (256 - c.toNat) * 16) := by
  have hc := c.toNat_lt
  have hsigned : c.toInt8.toInt = if 2 * c.toNat < 2 ^ 8 then (c.toNat : Int)
      else (c.toNat : Int) - (2 ^ 8 : Nat) := BitVec.toInt_eq_toNat_cond c.toBitVec
  rw [glyphOffset, hsigned]
  split
  · exact .inl ⟨by omega, by omega⟩
  · exact .inr ⟨by omega, by omega⟩

theorem onScreen_iff (hne : c ≠ 10) : s.OnScreen font c ↔
    ∀ b ∈ List.range 16, ∀ j ∈ List.range 8, PixelInside font s (glyphOffset c) b j := by
  have hc := c.toNat_lt
  simp only [List.mem_range]
  rw [OnScreen, or_iff_right hne]
  rcases glyphOffset_cases c with ⟨hlt, hoffset⟩ | ⟨hge, hoffset⟩
  · rw [and_iff_right hlt]
    refine forall_congr' fun b => forall_congr' fun hb => forall_congr' fun j =>
      forall_congr' fun hj => ?_
    have hindex : (glyphOffset c + b) % 2 ^ 64 = c.toNat * 16 + b := by omega
    rw [PixelInside, hindex, and_iff_right (show c.toNat * 16 + b < 4096 by omega)]
  · refine iff_of_false (fun h => absurd h.1 (Nat.not_lt.mpr hge)) fun hall => ?_
    have hread := (hall 0 (by decide) 0 (by decide)).1
    omega

/-- `print_char` stays on the screen exactly when what it prints does. -/
theorem printChar_cases (font : Nat → UInt8) (hs : s.Fits) (c : UInt8) (color : UInt32) :
    (s.OnScreen font c → ∃ s', printChar font s c color = .ok s' ∧ (s.moveCursor c).Same s') ∧
      (¬s.OnScreen font c → printChar font s c color = .error .outOfBounds) := by
  rw [printChar, moveCursor]
  by_cases hnewline : c = 10
  · rw [if_pos hnewline, if_pos hnewline]
    exact ⟨fun _ => ⟨_, rfl, .refl _⟩, fun hnot => absurd (.inl hnewline) hnot⟩
  · rw [if_neg hnewline, if_neg hnewline, onScreen_iff hnewline]
    obtain ⟨hok, herror⟩ := drawGlyph font hs (glyphOffset c) color
    constructor
    · intro hin
      obtain ⟨s₁, hdraw, hsame⟩ := hok hin
      obtain ⟨s', hret, hmoved⟩ := incrementCursorX_ok (hsame.fits hs) 10
      refine ⟨s', ?_, (hsame.advanceCursor 10).trans hmoved⟩
      rw [hdraw, ok_bind, hret]
    · intro hout
      rw [herror hout, error_bind]

/-- Each character is on the screen at the cursor that those before it leave. -/
def AllOnScreen (font : Nat → UInt8) (s : Screen) : List UInt8 → Prop
  | [] => True
  | c :: buffer => s.OnScreen font c ∧ AllOnScreen font (s.moveCursor c) buffer

theorem Same.onScreen_iff (h : s.Same s') (c : UInt8) :
    s'.OnScreen font c ↔ s.OnScreen font c := by
  rw [OnScreen, OnScreen, h.cursorX, h.cursorY, h.width, h.height]

theorem Same.allOnScreen_iff (h : s.Same s') (buffer : List UInt8) :
    AllOnScreen font s' buffer ↔ AllOnScreen font s buffer := by
  induction buffer generalizing s s' with
  | nil => exact Iff.rfl
  | cons c buffer ih =>
      rw [AllOnScreen, AllOnScreen, h.onScreen_iff, ih (h.moveCursor c)]

theorem write_cases (font : Nat → UInt8) (hs : s.Fits) (buffer : List UInt8) :
    (AllOnScreen font s buffer → ∃ s', write font s buffer = .ok s') ∧
      (¬AllOnScreen font s buffer → write font s buffer = .error .outOfBounds) := by
  induction buffer generalizing s with
  | nil => exact ⟨fun _ => ⟨s, rfl⟩, fun hnot => absurd trivial hnot⟩
  | cons c buffer ih =>
      rw [AllOnScreen, write, List.foldlM_cons]
      obtain ⟨hok, herror⟩ := printChar_cases font hs c 0xffffff
      by_cases hc : s.OnScreen font c
      · obtain ⟨s₁, hret, hmoved⟩ := hok hc
        have hrest := ih (hmoved.fits ((s.sameSize_moveCursor c).fits hs))
        rw [hmoved.allOnScreen_iff] at hrest
        rw [hret, ok_bind, and_iff_right hc]
        exact hrest
      · rw [herror hc, error_bind]
        exact ⟨fun h => absurd h.1 hc, fun _ => rfl⟩

/-- A sequence of writes is one write. -/
theorem write_append (s : Screen) (xs ys : List UInt8) :
    write font s (xs ++ ys) = write font s xs >>= fun s => write font s ys :=
  List.foldlM_append

/-- The screen after `video_init`, of which only the pixels are left open. -/
def start (frameBuffer : Nat → UInt32) (pitch width height : UInt16) : Screen :=
  { frameBuffer, pitch, width, height, cursorX := 0, cursorY := 0 }

end Screen

/-- On a screen of at least 10 by 18 pixels whose rows are long enough, wherever the cursor
was left, every store to the framebuffer and every read of the font while a buffer is written
is inside exactly when each byte, at the cursor it meets, is a newline, or is below 128 and
has its drawn pixels on the screen. -/
theorem terminal_iff {s : Screen} (hwidth : 10 ≤ s.width.toNat)
    (hheight : 18 ≤ s.height.toNat) (hpitch : s.width.toNat ≤ s.pitch.toNat / 4)
    (font : Nat → UInt8) (buffer : List UInt8) :
    Screen.write font s buffer ≠ .error .outOfBounds ↔ Screen.AllOnScreen font s buffer := by
  obtain ⟨hok, herror⟩ := Screen.write_cases font ⟨hwidth, hheight, hpitch⟩ buffer
  constructor
  · intro hret
    by_contra hnot
    exact hret (herror hnot)
  · intro hall
    obtain ⟨s', hret⟩ := hok hall
    rw [hret]
    exact fun heq => by cases heq

/-- The letter `A` of the font. -/
def letterA (i : Nat) : UInt8 :=
  [0, 0, 0, 0, 0x18, 0x24, 0x24, 0x42, 0x42, 0x7E, 0x42, 0x42, 0x42, 0x42].getD (i - 65 * 16) 0

/-- An `A` on the smallest screen. -/
theorem terminal_iff_letter :
    Screen.write letterA (.start (fun _ => 0) 40 10 18) [65] ≠ .error .outOfBounds := by
  refine (terminal_iff (by decide) (by decide) (by decide) letterA [65]).mpr ⟨.inr ⟨by decide, ?_⟩,
    trivial⟩
  intro b hb j hj _
  exact ⟨show 0 + j < 10 by omega, show 0 + b < 18 by omega⟩

/-- The byte 128 has its glyph before the font, and behind a newline an `A` is below the
smallest screen. -/
theorem output_leaves_screen :
    Screen.write letterA (.start (fun _ => 0) 40 10 18) [128] = .error .outOfBounds ∧
    Screen.write letterA (.start (fun _ => 0) 40 10 18) [10, 65] = .error .outOfBounds := by
  have hfits : (Screen.start (fun _ => 0) 40 10 18).Fits := ⟨by decide, by decide, by decide⟩
  constructor
  · refine (Screen.write_cases letterA hfits [128]).2 ?_
    rintro ⟨hnewline | ⟨hlt, _⟩, _⟩
    · exact absurd hnewline (by decide)
    · exact absurd hlt (by decide)
  · refine (Screen.write_cases letterA hfits [10, 65]).2 ?_
    rintro ⟨_, hbehind⟩
    rcases hbehind.1 with hnewline | ⟨_, hpixels⟩
    · exact absurd hnewline (by decide)
    · exact absurd (hpixels 4 (by decide) 3 (by decide) rfl).2 (by decide)

end Toystar.Drivers
