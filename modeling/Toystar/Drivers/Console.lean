import Toystar.Drivers.Tty
import Toystar.Verified.Run

/-!
# What the screen shows

A terminal is a grid of characters with a place for the next one (`Console`).  As long as
nothing leaves the screen, the framebuffer is the picture of that grid: a cell has 10 by
18 pixels, its glyph is white in the first 8 by 16 of them, and everything else has the
colour of `clear_screen` (`console_refines`).
-/

namespace Toystar.Drivers

open Toystar.Kernel
open Toystar.Verified

namespace Screen

variable {s s' s'' : Screen} {font : Nat → UInt8} {color : UInt32} {c : UInt8} {x y n : Nat}
  {P Q : Nat → Nat → Prop}

/-- `video_init`, of a screen that was never printed on. -/
def videoInit (frameBuffer : Nat → UInt32) (pitch width height : UInt16) :
    Except Fault Screen :=
  (start frameBuffer pitch width height).clearScreen 0x8075FF

/-! ## Pixels -/

def pixel (s : Screen) (x y : Nat) : UInt32 := s.frameBuffer (y * s.stride + x)

/-- Only the pixels in `P` changed, and they have the colour. -/
structure Paints (s : Screen) (color : UInt32) (P : Nat → Nat → Prop) (s' : Screen) : Prop
    extends Same s s' where
  drawn : ∀ {x y}, x < s.width.toNat → P x y → s'.pixel x y = color
  kept : ∀ {x y}, x < s.width.toNat → ¬P x y → s'.pixel x y = s.pixel x y

theorem Paints.refl (s : Screen) (color : UInt32) : s.Paints color (fun _ _ => False) s :=
  ⟨.refl s, fun _ h => h.elim, fun _ _ => rfl⟩

theorem Paints.trans (h : s.Paints color P s') (h' : s'.Paints color Q s'') :
    s.Paints color (fun x y => P x y ∨ Q x y) s'' := by
  have hwidth := h.width
  refine ⟨h.toSame.trans h'.toSame, fun {x y} hx hxy => ?_, fun {x y} hx hxy => ?_⟩
  · by_cases hQ : Q x y
    · exact h'.drawn (hwidth ▸ hx) hQ
    · rw [h'.kept (hwidth ▸ hx) hQ]
      exact h.drawn hx (hxy.resolve_right hQ)
  · rw [not_or] at hxy
    rw [h'.kept (hwidth ▸ hx) hxy.2, h.kept hx hxy.1]

theorem Paints.congr (h : s.Paints color P s') (hPQ : ∀ x y, P x y ↔ Q x y) :
    s.Paints color Q s' :=
  ⟨h.toSame, fun hx hxy => h.drawn hx ((hPQ _ _).mpr hxy),
    fun hx hxy => h.kept hx fun hP => hxy ((hPQ _ _).mp hP)⟩

/-- Places of two pixels of one screen. -/
theorem index_inj (hs : s.Fits) {x' y' : Nat} (hx : x < s.width.toNat)
    (hx' : x' < s.width.toNat) (h : y * s.stride + x = y' * s.stride + x') :
    x = x' ∧ y = y' := by
  have hstride := hs.stride
  have hmod : ∀ {x y : Nat}, x < s.width.toNat → (y * s.stride + x) % s.stride = x := by
    intro x y hx
    rw [Nat.add_comm, Nat.add_mul_mod_self_right, Nat.mod_eq_of_lt (by omega)]
  have hxx : x = x' := by rw [← hmod hx, h, hmod hx']
  subst hxx
  exact ⟨rfl, Nat.eq_of_mul_eq_mul_right (by omega) (Nat.add_right_cancel h)⟩

theorem paints_store (hs : s.Fits) (hx : x < s.width.toNat)
    (hret : s.store y x color = .ok s') :
    s.Paints color (fun x' y' => x' = x ∧ y' = y) s' := by
  unfold store at hret
  split at hret
  · cases hret
    refine ⟨⟨⟨rfl, rfl, rfl⟩, rfl, rfl⟩, ?_, ?_⟩
    · rintro x' y' _ ⟨rfl, rfl⟩
      exact Function.update_self _ _ _
    · intro x' y' hx' hne
      refine Function.update_of_ne (fun heq => hne ?_) _ _
      exact index_inj hs hx' hx heq
  · cases hret

/-- A loop that draws paints what its rounds paint. -/
theorem Paints.foldlM {β : Type} {f : Screen → β → Except Fault Screen}
    {P : β → Nat → Nat → Prop} (xs : List β)
    (hstep : ∀ {s₁ s₂ i}, s.Same s₁ → f s₁ i = .ok s₂ → s₁.Paints color (P i) s₂)
    {s₁ : Screen} (hsame : s.Same s₁) (hret : xs.foldlM f s₁ = .ok s') :
    s₁.Paints color (fun x y => ∃ i ∈ xs, P i x y) s' := by
  induction xs generalizing s₁ with
  | nil =>
      obtain rfl := Except.ok.inj hret
      exact (Paints.refl _ color).congr fun x y => by simp
  | cons i xs ih =>
      rw [List.foldlM_cons, bind_eq_ok] at hret
      obtain ⟨s₂, hfirst, hrest⟩ := hret
      have hpaints := hstep hsame hfirst
      refine (hpaints.trans (ih (hsame.trans hpaints.toSame) hrest)).congr fun x y => ?_
      rw [List.exists_mem_cons_iff]

/-! ## A glyph -/

/-- The pixels that the font draws for `c` at `(x₀, y₀)`. -/
def Glyph (font : Nat → UInt8) (c : UInt8) (x₀ y₀ x y : Nat) : Prop :=
  ∃ b < 16, ∃ j < 8, x = x₀ + j ∧ y = y₀ + b ∧ Lit font (c.toNat * 16 + b) j

theorem paints_drawPixel {offset b j : Nat} (hs : s.Fits) {s₁ s₂ : Screen}
    (hsame : s.Same s₁) (hret : drawPixel font offset color b s₁ j = .ok s₂) :
    s₁.Paints color (fun x y => x = s.cursorX.toNat + j ∧ y = s.cursorY.toNat + b ∧
      Lit font ((offset + b) % 2 ^ 64) j) s₂ := by
  rw [drawPixel, fontByte] at hret
  split at hret
  · rw [ok_bind] at hret
    split at hret
    · rename_i hlit
      have hx : j + s₁.cursorX.toNat < s₁.width.toNat := by
        by_contra hout
        rw [store_of_not_lt (fun h => hout h.1)] at hret
        cases hret
      refine (paints_store (hsame.fits hs) hx hret).congr fun x y => ?_
      rw [hsame.cursorX, hsame.cursorY, Nat.add_comm j, Nat.add_comm b]
      exact ⟨fun h => ⟨h.1, h.2, hlit⟩, fun h => ⟨h.1, h.2.1⟩⟩
    · rename_i hlit
      cases hret
      refine (Paints.refl s₁ color).congr fun x y => ?_
      exact iff_of_false id fun h => hlit h.2.2
  · cases hret

theorem paints_drawGlyph (hs : s.Fits) (hc : c.toNat < 128)
    (hret : (List.range 16).foldlM (drawRow font (glyphOffset c) color) s = .ok s') :
    s.Paints color (Glyph font c s.cursorX.toNat s.cursorY.toNat) s' := by
  have hoffset : glyphOffset c = c.toNat * 16 := by
    rcases glyphOffset_cases c with ⟨_, hoffset⟩ | ⟨hge, _⟩
    · exact hoffset
    · omega
  have hrow : ∀ {s₁ s₂ : Screen} {b : Nat}, s.Same s₁ →
      drawRow font (glyphOffset c) color s₁ b = .ok s₂ →
      s₁.Paints color (fun x y => ∃ j ∈ List.range 8, x = s.cursorX.toNat + j ∧
        y = s.cursorY.toNat + b ∧ Lit font ((glyphOffset c + b) % 2 ^ 64) j) s₂ :=
    fun hsame hdraw => Paints.foldlM (List.range 8)
      (fun hsame₁ hpixel => paints_drawPixel hs hsame₁ hpixel) hsame hdraw
  refine (Paints.foldlM (f := drawRow font (glyphOffset c) color) (List.range 16) hrow (.refl s)
    hret).congr fun x y => ?_
  unfold Glyph
  simp only [List.mem_range, hoffset]
  refine exists_congr fun b => and_congr_right fun hb => ?_
  rw [Nat.mod_eq_of_lt (by omega)]

/-! ## Clearing -/

/-- The inner loop of `rect` fills a part of a row. -/
theorem paints_rectRow (n : Nat) {s s' : Screen} (hs : s.Fits)
    (hx : s.cursorX.toNat + n ≤ s.width.toNat) (hret : rectRow color s n = .ok s') :
    s.SameSize s' ∧ s'.cursorY = s.cursorY ∧ ∀ {x y}, x < s.width.toNat →
      (s.cursorX.toNat ≤ x → x < s.cursorX.toNat + n → y = s.cursorY.toNat →
        s'.pixel x y = color) ∧
      (y ≠ s.cursorY.toNat → s'.pixel x y = s.pixel x y) ∧
      (x < s.cursorX.toNat → s'.pixel x y = s.pixel x y) := by
  induction n generalizing s with
  | zero =>
      cases hret
      refine ⟨⟨rfl, rfl, rfl⟩, rfl, fun _ => ⟨fun h h' => ?_, fun _ => rfl, fun _ => rfl⟩⟩
      omega
  | succ n ih =>
      rw [rectRow, bind_eq_ok] at hret
      obtain ⟨s₁, hstore, hrest⟩ := hret
      have hpaints := paints_store hs (show s.cursorX.toNat < s.width.toNat by omega) hstore
      have hmoved : ∃ u : Screen, u.Fits ∧ s.SameSize u ∧
          u.cursorX.toNat = s.cursorX.toNat + 1 ∧ u.cursorY = s.cursorY ∧
          (∀ x y, u.pixel x y = s₁.pixel x y) ∧ rectRow color u n = .ok s' := by
        have hfits := hpaints.fits hs
        refine ⟨{ s₁ with cursorX := s₁.cursorX + 1 },
          ⟨hfits.width, hfits.height, hfits.stride⟩,
          ⟨hpaints.pitch, hpaints.width, hpaints.height⟩, ?_, hpaints.cursorY,
          fun _ _ => rfl, hrest⟩
        have hwidth := s.width.toNat_lt
        dsimp only
        rw [hpaints.cursorX, UInt16.toNat_add, show (1 : UInt16).toNat = 1 from rfl]
        exact Nat.mod_eq_of_lt (by omega)
      obtain ⟨u, hfits, hsize, hux, huy, hpixel, hret⟩ := hmoved
      obtain ⟨hsame, hy, hrow⟩ := ih hfits (by rw [hux, hsize.width]; omega) hret
      refine ⟨hsize.trans hsame, hy.trans huy, fun {x y} hxw => ?_⟩
      obtain ⟨hin, hother, hleft⟩ := hrow (x := x) (y := y) (hsize.width ▸ hxw)
      rw [hux, huy] at hin
      rw [huy, hpixel] at hother
      rw [hux, hpixel] at hleft
      refine ⟨fun hlo hhi hyy => ?_, fun hyy => ?_, fun hlo => ?_⟩
      · rcases Nat.eq_or_lt_of_le hlo with heq | hlt
        · rw [hleft (by omega)]
          exact hpaints.drawn hxw ⟨heq.symm, hyy⟩
        · exact hin hlt (by omega) hyy
      · rw [hother hyy]
        exact hpaints.kept hxw fun h => hyy h.2
      · rw [hleft (by omega)]
        exact hpaints.kept hxw fun h => by omega

/-- The outer loop fills a rectangle from the top. -/
theorem paints_rectRows {x₀ : UInt16} {sizeX : Nat} (n : Nat) {s s' : Screen} (hs : s.Fits)
    (hcursor : s.cursorX = x₀) (hx : x₀.toNat + sizeX ≤ s.width.toNat)
    (hy : s.cursorY.toNat + n ≤ s.height.toNat) (hret : rectRows x₀ sizeX color s n = .ok s') :
    s.SameSize s' ∧ ∀ {x y}, x₀.toNat ≤ x → x < x₀.toNat + sizeX →
      (s.cursorY.toNat ≤ y → y < s.cursorY.toNat + n → s'.pixel x y = color) ∧
      (y < s.cursorY.toNat → s'.pixel x y = s.pixel x y) := by
  induction n generalizing s with
  | zero =>
      cases hret
      refine ⟨⟨rfl, rfl, rfl⟩, fun _ _ => ⟨fun h h' => ?_, fun _ => rfl⟩⟩
      omega
  | succ n ih =>
      rw [rectRows, bind_eq_ok] at hret
      obtain ⟨s₁, hfirst, hrest⟩ := hret
      obtain ⟨hsame₁, hy₁, hrow⟩ := paints_rectRow sizeX hs (by rw [hcursor]; exact hx) hfirst
      have hmoved : ∃ u : Screen, u.Fits ∧ s.SameSize u ∧ u.cursorX = x₀ ∧
          u.cursorY.toNat = s.cursorY.toNat + 1 ∧ (∀ x y, u.pixel x y = s₁.pixel x y) ∧
          rectRows x₀ sizeX color u n = .ok s' := by
        have hfits := hsame₁.fits hs
        refine ⟨{ s₁ with cursorX := x₀, cursorY := s₁.cursorY + 1 },
          ⟨hfits.width, hfits.height, hfits.stride⟩, ⟨hsame₁.pitch, hsame₁.width, hsame₁.height⟩,
          rfl, ?_, fun _ _ => rfl, hrest⟩
        have hheight := s.height.toNat_lt
        dsimp only
        rw [hy₁, UInt16.toNat_add, show (1 : UInt16).toNat = 1 from rfl]
        exact Nat.mod_eq_of_lt (by omega)
      obtain ⟨u, hfits, hsize, hux, huy, hpixel, hret⟩ := hmoved
      obtain ⟨hsame, hbelow⟩ := ih hfits hux (by rw [hsize.width]; exact hx)
        (by rw [huy, hsize.height]; omega) hret
      refine ⟨hsize.trans hsame, fun {x y} hlo hhi => ?_⟩
      obtain ⟨hin, habove⟩ := hbelow (x := x) (y := y) hlo hhi
      obtain ⟨hdrawn, hother, _⟩ := hrow (x := x) (y := y) (by omega)
      rw [hcursor] at hdrawn
      rw [huy] at hin habove
      rw [hpixel] at habove
      refine ⟨fun hylo hyhi => ?_, fun hylo => ?_⟩
      · rcases Nat.eq_or_lt_of_le hylo with heq | hlt
        · rw [habove (by omega)]
          exact hdrawn hlo hhi heq.symm
        · exact hin hlt (by omega)
      · rw [habove (by omega)]
        exact hother (by omega)

/-- Clearing gives every pixel of the screen the colour. -/
theorem pixel_clearScreen (hs : s.Fits) (hret : s.clearScreen color = .ok s')
    (hx : x < s.width.toNat) (hy : y < s.height.toNat) : s'.pixel x y = color := by
  rw [clearScreen, rect, bind_eq_ok] at hret
  obtain ⟨s₁, hrows, hret⟩ := hret
  cases hret
  obtain ⟨_, hpixels⟩ := paints_rectRows s.height.toNat
    (s := { s with cursorX := 0, cursorY := 0 }) ⟨hs.width, hs.height, hs.stride⟩ rfl
    (by simp) (by simp) hrows
  exact (hpixels (Nat.zero_le _) (by simpa using hx)).1 (Nat.zero_le _) (by simpa using hy)

end Screen

/-! ## The grid -/

/-- The characters, and the place of the next one. -/
structure Console where
  cell : Nat → Nat → Option UInt8
  row : Nat
  column : Nat

namespace Console

/-- A cleared screen. -/
def blank : Console := ⟨fun _ _ => none, 0, 0⟩

/-- A newline is not seen before the next character: it does not clear a full screen. -/
def put (columns rows : Nat) (t : Console) (c : UInt8) : Console :=
  if c = 10 then { t with row := t.row + 1, column := 0 }
  else
    let row := if t.column + 1 = columns then t.row + 1 else t.row
    if rows ≤ row then blank
    else
      { cell := Function.update t.cell t.row (Function.update (t.cell t.row) t.column (some c))
        row
        column := if t.column + 1 = columns then 0 else t.column + 1 }

/-- The pixels of the picture that are white. -/
def Lit (font : Nat → UInt8) (t : Console) (x y : Nat) : Prop :=
  ∃ c ∈ t.cell (y / 18) (x / 10), x % 10 < 8 ∧ y % 18 < 16 ∧
    Screen.Lit font (c.toNat * 16 + y % 18) (x % 10)

/-- The next place of the terminal, as pixels, can be counted in 16 bits, and what is put
there is drawn on the screen. -/
def Has (font : Nat → UInt8) (width height : Nat) (t : Console) (c : UInt8) : Prop :=
  18 * (t.row + 1) < 2 ^ 16 ∧
    (c = 10 ∨ (c.toNat < 128 ∧ ∀ b < 16, ∀ j < 8, Screen.Lit font (c.toNat * 16 + b) j →
      10 * t.column + j < width ∧ 18 * t.row + b < height))

/-- Characters of 10 pixels, the last one in a row can be cut. -/
def columns (width : Nat) : Nat := (width + 9) / 10

def rows (height : Nat) : Nat := (height + 17) / 18

/-- Each character has its place at the cursor that those before it leave. -/
def HasAll (font : Nat → UInt8) (width height : Nat) (t : Console) : List UInt8 → Prop
  | [] => True
  | c :: buffer => t.Has font width height c ∧
      HasAll font width height (t.put (columns width) (rows height) c) buffer

end Console

namespace Screen

variable {s s' : Screen} {t : Console} {font : Nat → UInt8} {c : UInt8} {x y : Nat}

/-- The screen is the picture of the grid. -/
structure Displays (font : Nat → UInt8) (s : Screen) (t : Console) : Prop where
  cursorX : s.cursorX.toNat = 10 * t.column
  cursorY : s.cursorY.toNat = 18 * t.row
  column : t.column < Console.columns s.width.toNat
  ahead : ∀ {i j}, t.row < i ∨ (t.row = i ∧ t.column ≤ j) → t.cell i j = none
  lit : ∀ {x y}, x < s.width.toNat → y < s.height.toNat → t.Lit font x y →
    s.pixel x y = 0xffffff
  dark : ∀ {x y}, x < s.width.toNat → y < s.height.toNat → ¬t.Lit font x y →
    s.pixel x y = 0x8075FF

theorem displays_of_cleared (hs : s.Fits) (hret : s.clearScreen 0x8075FF = .ok s') :
    s'.Displays font .blank := by
  obtain ⟨s₁, hret₁, hsame⟩ := clearScreen_ok hs 0x8075FF
  obtain rfl : s₁ = s' := Except.ok.inj (hret₁.symm.trans hret)
  have hwidth := hs.width
  refine
    { cursorX := by rw [hsame.cursorX]; rfl
      cursorY := by rw [hsame.cursorY]; rfl
      column := ?_
      ahead := fun _ => rfl
      lit := fun _ _ hlit => ?_
      dark := fun hx hy _ => ?_ }
  · rw [hsame.width]
    unfold Console.columns Console.blank
    dsimp only
    omega
  · obtain ⟨_, hc, _⟩ := hlit
    cases hc
  · rw [hsame.width] at hx
    rw [hsame.height] at hy
    exact pixel_clearScreen hs hret hx hy

/-! ## One character -/

/-- A character in its cell is the glyph at the cursor. -/
theorem lit_update (hahead : t.cell t.row t.column = none) (u : Console)
    (hcell : u.cell = Function.update t.cell t.row
      (Function.update (t.cell t.row) t.column (some c))) (x y : Nat) :
    u.Lit font x y ↔ t.Lit font x y ∨ Glyph font c (10 * t.column) (18 * t.row) x y := by
  have hother : y / 18 ≠ t.row ∨ x / 10 ≠ t.column →
      u.cell (y / 18) (x / 10) = t.cell (y / 18) (x / 10) := by
    intro hne
    rw [hcell]
    by_cases hrow : y / 18 = t.row
    · rw [hrow, Function.update_self]
      exact Function.update_of_ne (hne.resolve_left (not_not_intro hrow)) _ _
    · rw [Function.update_of_ne hrow]
  have hself : u.cell t.row t.column = some c := by
    rw [hcell, Function.update_self, Function.update_self]
  constructor
  · rintro ⟨d, hd, hx, hy, hlit⟩
    by_cases hplace : y / 18 = t.row ∧ x / 10 = t.column
    · rw [hplace.1, hplace.2, hself] at hd
      obtain rfl := Option.some.inj hd
      exact .inr ⟨y % 18, hy, x % 10, hx, by omega, by omega, hlit⟩
    · rw [hother (by tauto)] at hd
      exact .inl ⟨d, hd, hx, hy, hlit⟩
  · rintro (⟨d, hd, hx, hy, hlit⟩ | ⟨b, hb, j, hj, rfl, rfl, hlit⟩)
    · refine ⟨d, ?_, hx, hy, hlit⟩
      rw [hother ?_]
      · exact hd
      · by_contra hplace
        rw [not_or, not_not, not_not] at hplace
        rw [hplace.1, hplace.2, hahead] at hd
        cases hd
    · have hcolumn : (10 * t.column + j) / 10 = t.column := by omega
      have hrow : (18 * t.row + b) / 18 = t.row := by omega
      have hj' : (10 * t.column + j) % 10 = j := by omega
      have hb' : (18 * t.row + b) % 18 = b := by omega
      refine ⟨c, ?_, by omega, by omega, ?_⟩
      · rw [hcolumn, hrow]
        exact hself
      · rw [hj', hb']
        exact hlit

/-- Whether the next place is in the next row, and whether there is one. -/
theorem lt_columns_iff (width column : Nat) :
    column < Console.columns width ↔ 10 * column < width := by
  unfold Console.columns
  omega

theorem lt_rows_iff (height row : Nat) : row < Console.rows height ↔ 18 * row < height := by
  unfold Console.rows
  omega

theorem Displays.onScreen (h : s.Displays font t)
    (hc : t.Has font s.width.toNat s.height.toNat c) : s.OnScreen font c := by
  rw [OnScreen, h.cursorX, h.cursorY]
  exact hc.2

theorem Displays.newline (h : s.Displays font t) (hs : s.Fits)
    (hlow : 18 * (t.row + 1) < 2 ^ 16) :
    ({ s with cursorY := s.cursorY + 18, cursorX := 0 } : Screen).Displays font
      { t with row := t.row + 1, column := 0 } := by
  have hwidth := hs.width
  refine
    { cursorX := rfl
      cursorY := ?_
      column := (lt_columns_iff _ _).mpr (by dsimp only; omega)
      ahead := fun {i j} hij => h.ahead (.inl ?_)
      lit := fun hx hy hlit => h.lit hx hy hlit
      dark := fun hx hy hlit => h.dark hx hy hlit }
  · dsimp only
    rw [UInt16.toNat_add, h.cursorY, show (18 : UInt16).toNat = 18 from rfl]
    exact Nat.mod_eq_of_lt (by omega)
  · dsimp only at hij
    omega

/-- `increment_cursor_x` behind a glyph that was drawn: the place moves on, and a full screen
is cleared. -/
theorem Displays.advance {u : Console} (hs : s.Fits) (hwide : s.width.toNat ≤ 65526)
    (hx : s.cursorX.toNat = 10 * u.column) (hy : s.cursorY.toNat = 18 * u.row)
    (hcolumn : u.column < Console.columns s.width.toNat) (hlow : 18 * (u.row + 1) < 2 ^ 16)
    (hahead : ∀ {i j}, u.row < i ∨ (u.row = i ∧ u.column + 1 ≤ j) → u.cell i j = none)
    (hlit : ∀ {x y}, x < s.width.toNat → y < s.height.toNat → u.Lit font x y →
      s.pixel x y = 0xffffff)
    (hdark : ∀ {x y}, x < s.width.toNat → y < s.height.toNat → ¬u.Lit font x y →
      s.pixel x y = 0x8075FF) :
    let row := if u.column + 1 = Console.columns s.width.toNat then u.row + 1 else u.row
    ∃ s', s.incrementCursorX 10 = .ok s' ∧ s.SameSize s' ∧ s'.Displays font
      (if Console.rows s.height.toNat ≤ row then .blank
      else
        { u with
          row
          column := if u.column + 1 = Console.columns s.width.toNat then 0
            else u.column + 1 }) := by
  have hwidth := hs.width
  have hedge := lt_columns_iff s.width.toNat u.column
  have hnext := lt_columns_iff s.width.toNat (u.column + 1)
  have hmoved : (s.cursorX + 10).toNat = 10 * (u.column + 1) := by
    rw [UInt16.toNat_add, hx, show (10 : UInt16).toNat = 10 from rfl]
    exact Nat.mod_eq_of_lt (by omega)
  have hwrap : s.cursorX + 10 ≥ s.width ↔ u.column + 1 = Console.columns s.width.toNat := by
    rw [ge_iff_le, UInt16.le_iff_toNat_le, hmoved]
    omega
  -- the cursor after the move, on a screen of the same pixels
  have hcursor : ∃ u' : Screen, u'.Fits ∧ s.SameSize u' ∧ u'.frameBuffer = s.frameBuffer ∧
      u'.cursorX.toNat = 10 * (if u.column + 1 = Console.columns s.width.toNat then 0
        else u.column + 1) ∧
      u'.cursorY.toNat = 18 * (if u.column + 1 = Console.columns s.width.toNat then u.row + 1
        else u.row) ∧
      s.incrementCursorX 10 =
        if u'.cursorY ≥ u'.height then u'.clearScreen 0x8075FF else .ok u' := by
    by_cases hend : u.column + 1 = Console.columns s.width.toNat
    · refine ⟨{ s with cursorX := 0, cursorY := s.cursorY + 18 },
        ⟨hs.width, hs.height, hs.stride⟩, ⟨rfl, rfl, rfl⟩, rfl, ?_, ?_, ?_⟩
      · rw [if_pos hend]
        rfl
      · dsimp only
        rw [if_pos hend, UInt16.toNat_add, hy, show (18 : UInt16).toNat = 18 from rfl]
        exact Nat.mod_eq_of_lt (by omega)
      · rw [incrementCursorX]
        dsimp only
        rw [if_pos (hwrap.mpr hend)]
    · refine ⟨{ s with cursorX := s.cursorX + 10 },
        ⟨hs.width, hs.height, hs.stride⟩, ⟨rfl, rfl, rfl⟩, rfl, ?_, ?_, ?_⟩
      · rw [if_neg hend]
        exact hmoved
      · rw [if_neg hend]
        exact hy
      · rw [incrementCursorX]
        dsimp only
        rw [if_neg (fun h => hend (hwrap.mp h))]
  obtain ⟨u', hfits, hsize, hbuffer, hx', hy', hret⟩ := hcursor
  dsimp only
  have hfull : u'.cursorY ≥ u'.height ↔ Console.rows s.height.toNat ≤
      (if u.column + 1 = Console.columns s.width.toNat then u.row + 1 else u.row) := by
    rw [ge_iff_le, UInt16.le_iff_toNat_le, hy', hsize.height, ← Nat.not_lt, ← Nat.not_lt,
      lt_rows_iff]
  have hpixel : ∀ x y, u'.pixel x y = s.pixel x y := by
    intro x y
    unfold pixel stride
    rw [hbuffer, hsize.pitch]
  by_cases hclear : u'.cursorY ≥ u'.height
  · obtain ⟨s', hcleared, hsame⟩ := clearScreen_ok hfits 0x8075FF
    refine ⟨s', ?_, hsize.trans ⟨hsame.pitch, hsame.width, hsame.height⟩, ?_⟩
    · rw [hret, if_pos hclear, hcleared]
    · rw [if_pos (hfull.mp hclear)]
      exact displays_of_cleared hfits hcleared
  · refine ⟨u', ?_, hsize, ?_⟩
    · rw [hret, if_neg hclear]
    · rw [if_neg (fun h => hclear (hfull.mpr h))]
      refine
        { cursorX := hx'
          cursorY := hy'
          column := ?_
          ahead := fun {i j} hij => hahead ?_
          lit := fun hxw hyh hl => ?_
          dark := fun hxw hyh hl => ?_ }
      · rw [hsize.width]
        dsimp only
        split
        all_goals omega
      · dsimp only at hij
        split at hij
        all_goals omega
      · rw [hpixel]
        exact hlit (hsize.width ▸ hxw) (hsize.height ▸ hyh) hl
      · rw [hpixel]
        exact hdark (hsize.width ▸ hxw) (hsize.height ▸ hyh) hl

/-- One character on the screen is one in the grid. -/
theorem Displays.printChar (h : s.Displays font t) (hs : s.Fits) (hwide : s.width.toNat ≤ 65526)
    (hc : t.Has font s.width.toNat s.height.toNat c) :
    ∃ s', Screen.printChar font s c 0xffffff = .ok s' ∧ s.SameSize s' ∧ s'.Displays font
      (t.put (Console.columns s.width.toNat) (Console.rows s.height.toNat) c) := by
  rw [Screen.printChar, Console.put]
  by_cases hnewline : c = 10
  · rw [if_pos hnewline, if_pos hnewline]
    exact ⟨_, rfl, ⟨rfl, rfl, rfl⟩, h.newline hs hc.1⟩
  · rw [if_neg hnewline, if_neg hnewline]
    obtain ⟨hlow, hseen⟩ := hc
    have hon := h.onScreen ⟨hlow, hseen⟩
    have hplain := (hseen.resolve_left hnewline).1
    obtain ⟨s₁, hdraw, hsame⟩ := (drawGlyph font hs (glyphOffset c) 0xffffff).1
      ((onScreen_iff hnewline).mp hon)
    have hpaints := paints_drawGlyph hs hplain hdraw
    rw [h.cursorX, h.cursorY] at hpaints
    obtain ⟨u, hu⟩ : ∃ u : Console, u = { t with
      cell := Function.update t.cell t.row
        (Function.update (t.cell t.row) t.column (some c)) } := ⟨_, rfl⟩
    have hcell : u.cell = Function.update t.cell t.row
        (Function.update (t.cell t.row) t.column (some c)) := by rw [hu]
    have hrow : u.row = t.row := by rw [hu]
    have hcolumn : u.column = t.column := by rw [hu]
    have hpicture : ∀ x y, u.Lit font x y ↔
        t.Lit font x y ∨ Glyph font c (10 * t.column) (18 * t.row) x y :=
      lit_update (h.ahead (.inr ⟨rfl, le_refl _⟩)) u hcell
    have hahead : ∀ {i j}, u.row < i ∨ (u.row = i ∧ u.column + 1 ≤ j) → u.cell i j = none := by
      intro i j hij
      rw [hrow, hcolumn] at hij
      have hnone : t.cell i j = none := h.ahead (by omega)
      rw [hcell]
      by_cases hi : i = t.row
      · rw [hi, Function.update_self, Function.update_of_ne (by omega), ← hi, hnone]
      · rw [Function.update_of_ne hi, hnone]
    have hlit : ∀ {x y}, x < s₁.width.toNat → y < s₁.height.toNat → u.Lit font x y →
        s₁.pixel x y = 0xffffff := by
      intro x y hx hy hlit
      rw [hsame.width] at hx
      rw [hsame.height] at hy
      by_cases hglyph : Glyph font c (10 * t.column) (18 * t.row) x y
      · exact hpaints.drawn hx hglyph
      · rw [hpaints.kept hx hglyph]
        exact h.lit hx hy (((hpicture x y).mp hlit).resolve_right hglyph)
    have hdark : ∀ {x y}, x < s₁.width.toNat → y < s₁.height.toNat → ¬u.Lit font x y →
        s₁.pixel x y = 0x8075FF := by
      intro x y hx hy hdark
      rw [hsame.width] at hx
      rw [hsame.height] at hy
      rw [hpicture, not_or] at hdark
      rw [hpaints.kept hx hdark.2]
      exact h.dark hx hy hdark.1
    obtain ⟨s', hret, hsize, hdisplays⟩ := Displays.advance (hsame.fits hs)
      (by rw [hsame.width]; exact hwide) (by rw [hsame.cursorX, h.cursorX, hcolumn])
      (by rw [hsame.cursorY, h.cursorY, hrow]) (by rw [hsame.width, hcolumn]; exact h.column)
      (by rw [hrow]; exact hlow) hahead hlit hdark
    refine ⟨s', ?_, hsame.toSameSize.trans hsize, ?_⟩
    · rw [hdraw, ok_bind, hret]
    · rw [hsame.width, hsame.height, hcell, hrow, hcolumn] at hdisplays
      exact hdisplays

theorem Displays.write (hs : s.Fits) (hwide : s.width.toNat ≤ 65526) (h : s.Displays font t)
    {buffer : List UInt8} (hall : t.HasAll font s.width.toNat s.height.toNat buffer) :
    ∃ s', Screen.write font s buffer = .ok s' ∧ s.SameSize s' ∧ s'.Displays font
      (buffer.foldl (Console.put (Console.columns s.width.toNat)
        (Console.rows s.height.toNat)) t) := by
  induction buffer generalizing s t with
  | nil => exact ⟨s, rfl, ⟨rfl, rfl, rfl⟩, h⟩
  | cons c buffer ih =>
      obtain ⟨hc, hrest⟩ := hall
      obtain ⟨s₁, hret, hsize, hdisplays⟩ := h.printChar hs hwide hc
      obtain ⟨s', hret', hsize', hdisplays'⟩ := ih (hsize.fits hs)
        (by rw [hsize.width]; exact hwide) hdisplays
        (by rw [hsize.width, hsize.height]; exact hrest)
      refine ⟨s', ?_, hsize.trans hsize', ?_⟩
      · rw [Screen.write, List.foldlM_cons, hret, ok_bind]
        exact hret'
      · rw [hsize.width, hsize.height] at hdisplays'
        exact hdisplays'

/-- `video_init` leaves an empty grid. -/
theorem videoInit_ok (font frameBuffer) {pitch width height : UInt16}
    (hwidth : 10 ≤ width.toNat) (hheight : 18 ≤ height.toNat)
    (hpitch : width.toNat ≤ pitch.toNat / 4) :
    ∃ s, videoInit frameBuffer pitch width height = .ok s ∧ s.Fits ∧ s.width = width ∧
      s.height = height ∧ s.Displays font .blank := by
  have hfits : (start frameBuffer pitch width height).Fits := ⟨hwidth, hheight, hpitch⟩
  obtain ⟨s, hinit, hsame⟩ := clearScreen_ok hfits 0x8075FF
  have hsize : (start frameBuffer pitch width height).SameSize s :=
    ⟨hsame.pitch, hsame.width, hsame.height⟩
  exact ⟨s, hinit, hsize.fits hfits, hsame.width, hsame.height, displays_of_cleared hfits hinit⟩

/-- Writes one after another are one write. -/
theorem foldlM_write (font : Nat → UInt8) (s : Screen) (buffers : List (List UInt8)) :
    buffers.foldlM (Screen.write font) s = Screen.write font s buffers.flatten := by
  induction buffers generalizing s with
  | nil => rfl
  | cons buffer buffers ih =>
      rw [List.foldlM_cons, List.flatten_cons, write_append]
      exact congrArg (Screen.write font s buffer >>= ·) (funext ih)

end Screen

/-- From `video_init` on, whatever is written in however many calls: as long as each
character has its place on the screen, no call leaves the framebuffer or the font, and the
framebuffer is the picture of the grid of characters, where a full row goes on in the next
one and a full screen is cleared. -/
theorem console_refines (font frameBuffer) {pitch width height : UInt16}
    (hwidth : 10 ≤ width.toNat) (hwide : width.toNat ≤ 65526) (hheight : 18 ≤ height.toNat)
    (hpitch : width.toNat ≤ pitch.toNat / 4) (buffers : List (List UInt8))
    (hall : Console.blank.HasAll font width.toNat height.toNat buffers.flatten) :
    ∃ s s', Screen.videoInit frameBuffer pitch width height = .ok s ∧
      buffers.foldlM (Screen.write font) s = .ok s' ∧
      let t := buffers.flatten.foldl
        (Console.put (Console.columns width.toNat) (Console.rows height.toNat)) .blank
      ∀ x < width.toNat, ∀ y < height.toNat,
        (t.Lit font x y → s'.pixel x y = 0xffffff) ∧
          (¬t.Lit font x y → s'.pixel x y = 0x8075FF) := by
  obtain ⟨s, hinit, hfits, hw, hh, hblank⟩ :=
    Screen.videoInit_ok font frameBuffer hwidth hheight hpitch
  obtain ⟨s', hret, hsize', hpicture⟩ := hblank.write hfits (by rw [hw]; exact hwide)
    (by rw [hw, hh]; exact hall)
  rw [hw, hh] at hpicture
  refine ⟨s, s', hinit, (Screen.foldlM_write font s buffers).trans hret, fun x hx y hy => ?_⟩
  rw [← hw, ← hsize'.width] at hx
  rw [← hh, ← hsize'.height] at hy
  exact ⟨hpicture.lit hx hy, hpicture.dark hx hy⟩

instance (font : Nat → UInt8) (i j : Nat) : Decidable (Screen.Lit font i j) :=
  inferInstanceAs (Decidable (_ = _))

instance (font : Nat → UInt8) (width height : Nat) (t : Console) (c : UInt8) :
    Decidable (t.Has font width height c) :=
  inferInstanceAs (Decidable (_ ∧ (_ ∨ (_ ∧ ∀ b < 16, ∀ j < 8, _ → _))))

instance Console.decidableHasAll (font : Nat → UInt8) (width height : Nat) :
    (t : Console) → (buffer : List UInt8) → Decidable (t.HasAll font width height buffer)
  | _, [] => isTrue trivial
  | t, c :: buffer =>
      have := decidableHasAll font width height
        (t.put (columns width) (rows height) c) buffer
      inferInstanceAs (Decidable (_ ∧ _))

/-- On a screen of 40 by 36 pixels an `A` is drawn behind four others, in the second row. -/
theorem console_refines_letters : ∃ s s',
    Screen.videoInit (fun _ => 0) 160 40 36 = .ok s ∧
      [[65, 65], [65, 65, 65]].foldlM (Screen.write letterA) s = .ok s' ∧
      s'.pixel 3 (18 + 4) = 0xffffff ∧ s'.pixel 0 (18 + 4) = 0x8075FF := by
  obtain ⟨s, s', hinit, hret, hpixels⟩ := console_refines letterA (fun _ => 0)
    (show 10 ≤ (40 : UInt16).toNat by decide) (by decide)
    (show 18 ≤ (36 : UInt16).toNat by decide)
    (show (40 : UInt16).toNat ≤ (160 : UInt16).toNat / 4 by decide)
    [[65, 65], [65, 65, 65]] (by decide +kernel)
  refine ⟨s, s', hinit, hret, (hpixels 3 (by decide) 22 (by decide)).1 ?_,
    (hpixels 0 (by decide) 22 (by decide)).2 ?_⟩
  · exact ⟨65, by decide +kernel, by decide, by decide, by decide⟩
  · rintro ⟨c, hc, _, _, hlit⟩
    obtain rfl : c = 65 := by
      have hcell : (65 : UInt8) ∈ Console.cell ([[65, 65], [65, 65, 65]].flatten.foldl
        (Console.put (Console.columns 40) (Console.rows 36)) .blank) (22 / 18) (0 / 10) := by
        decide +kernel
      exact Option.mem_unique hc hcell
    exact absurd hlit (by decide)

end Toystar.Drivers
