import Toystar.Drivers.Console

/-!
# The keyboard and the console

`isr_keyboard` keeps two flags and prints the character of a key from one of four tables.
The flags are what the keys so far make of them: shift is held when the last press or
release of a shift key was a press, and caps lock is on behind an odd number of presses.
The tables end before the last scancode that they are read at, those for shift four keys
before the others, so that a space while shift is held is read behind its table.

What is typed and what programs write goes to one console (`keyboard_console`).
-/

namespace Toystar.Drivers

open Toystar.Kernel
open Toystar.Verified

namespace Keyboard

/-! ## The handler -/

structure State where
  shift : Bool
  caps : Bool
deriving DecidableEq

def MAX_SCANCODE : UInt8 := 0x59

def LSHIFT : UInt8 := 0x2A

def RSHIFT : UInt8 := 0x36

def CAPS : UInt8 := 0x3A

def scNormal : List UInt8 :=
  [0, 0, 49, 50, 51, 52, 53, 54, 55, 56, 57, 48, 45,
   61, 0, 0, 113, 119, 101, 114, 116, 121, 117, 105, 111, 112, 91,
   93, 0, 0, 97, 115, 100, 102, 103, 104, 106, 107, 108, 59, 39,
   96, 0, 92, 122, 120, 99, 118, 98, 110, 109, 44, 46, 47,
   0, 0, 0, 32]

def scCaps : List UInt8 :=
  [0, 0, 49, 50, 51, 52, 53, 54, 55, 56, 57, 48, 45,
   61, 0, 0, 81, 87, 69, 82, 84, 89, 85, 73, 79, 80, 91,
   93, 0, 0, 65, 83, 68, 70, 71, 72, 74, 75, 76, 59, 39,
   96, 0, 92, 90, 88, 67, 86, 66, 78, 77, 44, 46, 47,
   0, 0, 0, 32]

def scShift : List UInt8 :=
  [0, 0, 33, 64, 35, 36, 37, 94, 38, 42, 40, 41, 95, 43,
   0, 0, 81, 87, 69, 82, 84, 89, 85, 73, 79, 80, 123, 125,
   0, 0, 65, 83, 68, 70, 71, 72, 74, 75, 76, 58, 34, 126,
   0, 124, 90, 88, 67, 86, 66, 78, 77, 60, 62, 63]

def scShiftCaps : List UInt8 :=
  [0, 0, 33, 64, 35, 36, 37, 94, 38, 42, 40, 41, 95, 43,
   0, 0, 113, 119, 101, 114, 116, 121, 117, 105, 111, 112, 123, 125,
   0, 0, 97, 115, 100, 102, 103, 104, 106, 107, 108, 58, 34, 126,
   0, 124, 122, 120, 99, 118, 98, 110, 109, 60, 62, 63]

/-- The table that a key is looked up in. -/
def State.table (state : State) : List UInt8 :=
  if state.shift && state.caps then scShiftCaps
  else if state.shift then scShift
  else if state.caps then scCaps
  else scNormal

/-- `isr_keyboard`, where `key` is what port `0x60` gives. -/
def isrKeyboard (font : Nat → UInt8) (state : State) (s : Screen) (key : UInt8) :
    Except Fault (State × Screen) :=
  if key ≥ MAX_SCANCODE then
    let releasedKey := key - 0x80
    if releasedKey = LSHIFT ∨ releasedKey = RSHIFT then .ok ({ state with shift := false }, s)
    else .ok (state, s)
  else if key = LSHIFT ∨ key = RSHIFT then .ok ({ state with shift := true }, s)
  else if key = CAPS then .ok ({ state with caps := !state.caps }, s)
  else
    match state.table[key.toNat]? with
    | none => .error .outOfBounds
    | some buffer => do return (state, ← Screen.printChar font s buffer 0xffffff)

/-- A key is pressed or released, or a program writes. -/
inductive Event
  | key (code : UInt8)
  | write (buffer : List UInt8)

def exec (font : Nat → UInt8) (t : State × Screen) : Event → Except Fault (State × Screen)
  | .key code => isrKeyboard font t.1 t.2 code
  | .write buffer => do return (t.1, ← Screen.write font t.2 buffer)

/-! ## What it is for -/

def IsShift (code : UInt8) : Bool :=
  code ∈ [LSHIFT, RSHIFT, LSHIFT + 0x80, RSHIFT + 0x80]

/-- The last press or release of a shift key is a press. -/
def shiftHeld (keys : List UInt8) : Bool := (keys.reverse.find? IsShift).any (· < 0x80)

/-- Caps lock was pressed an odd number of times. -/
def capsOn (keys : List UInt8) : Bool := keys.count CAPS % 2 = 1

def stateOf (keys : List UInt8) : State := ⟨shiftHeld keys, capsOn keys⟩

/-- The key stands for a character. -/
def Prints (code : UInt8) : Prop :=
  code < MAX_SCANCODE ∧ code ≠ LSHIFT ∧ code ≠ RSHIFT ∧ code ≠ CAPS

instance (code : UInt8) : Decidable (Prints code) := inferInstanceAs (Decidable (_ ∧ _))

/-- What a key types behind others. -/
def typed (keys : List UInt8) (code : UInt8) : List UInt8 :=
  if Prints code then [((stateOf keys).table[code.toNat]?).getD 0] else []

/-- What goes to the console behind the keys pressed so far. -/
def text (keys : List UInt8) : List Event → List UInt8
  | [] => []
  | .key code :: es => typed keys code ++ text (keys ++ [code]) es
  | .write buffer :: es => buffer ++ text keys es

/-- Every key that prints has an entry: with shift held the tables are four entries
shorter. -/
def InTables (keys : List UInt8) : List Event → Prop
  | [] => True
  | .key code :: es =>
      (Prints code → code.toNat < if shiftHeld keys then 54 else 58) ∧
        InTables (keys ++ [code]) es
  | .write _ :: es => InTables keys es

/-- The keys among the events. -/
def keysOf : List Event → List UInt8
  | [] => []
  | .key code :: es => code :: keysOf es
  | .write _ :: es => keysOf es

/-! ## The flags -/

variable {font : Nat → UInt8} {keys : List UInt8} {code : UInt8} {s s' : Screen}
  {t : Console} {es : List Event}

theorem isShift_iff : IsShift code = true ↔ (code = LSHIFT ∨ code = RSHIFT) ∨
    code = LSHIFT + 0x80 ∨ code = RSHIFT + 0x80 := by
  simp [IsShift, or_assoc]

theorem shiftHeld_of_isShift (h : IsShift code = true) :
    shiftHeld (keys ++ [code]) = decide (code < 0x80) := by
  rw [shiftHeld, List.reverse_concat, List.find?_cons_of_pos h]
  rfl

theorem shiftHeld_of_not (h : ¬IsShift code = true) :
    shiftHeld (keys ++ [code]) = shiftHeld keys := by
  rw [shiftHeld, List.reverse_concat, List.find?_cons_of_neg h, shiftHeld]

theorem capsOn_caps : capsOn (keys ++ [CAPS]) = !capsOn keys := by
  rw [capsOn, capsOn, List.count_append, List.count_singleton_self, Bool.eq_not_iff,
    ne_eq, decide_eq_decide]
  omega

theorem capsOn_of_ne (h : code ≠ CAPS) : capsOn (keys ++ [code]) = capsOn keys := by
  rw [capsOn, capsOn, List.count_append, List.count_singleton, if_neg (by simpa using h),
    Nat.add_zero]

/-- Only the shift keys and caps lock change the flags. -/
theorem stateOf_of_not (hshift : ¬IsShift code = true) (hcaps : code ≠ CAPS) :
    stateOf (keys ++ [code]) = stateOf keys := by
  rw [stateOf, stateOf, shiftHeld_of_not hshift, capsOn_of_ne hcaps]

theorem stateOf_of_isShift (h : IsShift code = true) (hcaps : code ≠ CAPS) :
    stateOf (keys ++ [code]) = { stateOf keys with shift := decide (code < 0x80) } := by
  rw [stateOf, stateOf, shiftHeld_of_isShift h, capsOn_of_ne hcaps]

theorem length_table (keys : List UInt8) :
    (stateOf keys).table.length = if shiftHeld keys then 54 else 58 := by
  rw [State.table, stateOf]
  cases shiftHeld keys
  all_goals
    cases capsOn keys
    all_goals rfl

theorem Prints.not_isShift (h : Prints code) : ¬IsShift code = true := by
  obtain ⟨hlt, hleft, hright, _⟩ := h
  rw [isShift_iff]
  rintro ((rfl | rfl) | rfl | rfl)
  · exact hleft rfl
  · exact hright rfl
  · exact absurd hlt (by decide)
  · exact absurd hlt (by decide)

/-! ## One event -/

/-- A key that prints no character is one for the flags. -/
theorem isrKeyboard_of_not_prints (h : ¬Prints code) :
    isrKeyboard font (stateOf keys) s code = .ok (stateOf (keys ++ [code]), s) := by
  rw [isrKeyboard]
  by_cases hlarge : code ≥ MAX_SCANCODE
  · have hcaps : code ≠ CAPS := by
      rintro rfl
      exact absurd hlarge (by decide)
    have hreleased : code - 0x80 = LSHIFT ∨ code - 0x80 = RSHIFT ↔ IsShift code = true := by
      have hpressed : ¬(code = LSHIFT ∨ code = RSHIFT) := by
        rintro (rfl | rfl)
        · exact absurd hlarge (by decide)
        · exact absurd hlarge (by decide)
      rw [UInt8.sub_eq_iff_eq_add, UInt8.sub_eq_iff_eq_add, isShift_iff]
      exact (or_iff_right hpressed).symm
    rw [if_pos hlarge]
    dsimp only
    by_cases hshift : IsShift code = true
    · have hhigh : ¬code < 0x80 := by
        rcases isShift_iff.mp hshift with (rfl | rfl) | rfl | rfl
        · exact absurd hlarge (by decide)
        · exact absurd hlarge (by decide)
        · decide
        · decide
      rw [if_pos (hreleased.mpr hshift), stateOf_of_isShift hshift hcaps, decide_eq_false hhigh]
    · rw [if_neg (fun hr => hshift (hreleased.mp hr)), stateOf_of_not hshift hcaps]
  · rw [if_neg hlarge]
    by_cases hshift : code = LSHIFT ∨ code = RSHIFT
    · have hlow : code < 0x80 ∧ code ≠ CAPS := by
        rcases hshift with rfl | rfl
        · decide
        · decide
      rw [if_pos hshift, stateOf_of_isShift (isShift_iff.mpr (.inl hshift)) hlow.2,
        decide_eq_true hlow.1]
    · rw [if_neg hshift]
      have hcaps : code = CAPS := by
        by_contra hne
        rw [not_or] at hshift
        exact h ⟨UInt8.not_le.mp hlarge, hshift.1, hshift.2, hne⟩
      subst hcaps
      rw [if_pos rfl, stateOf, stateOf, capsOn_caps, shiftHeld_of_not (by decide)]

/-- A key that prints is looked up in its table. -/
theorem isrKeyboard_of_prints (h : Prints code) :
    isrKeyboard font (stateOf keys) s code =
      match (stateOf keys).table[code.toNat]? with
      | none => .error .outOfBounds
      | some c => do return (stateOf keys, ← Screen.printChar font s c 0xffffff) := by
  obtain ⟨hlt, hleft, hright, hcaps⟩ := h
  rw [isrKeyboard, if_neg (UInt8.not_le.mpr hlt), if_neg (not_or.mpr ⟨hleft, hright⟩),
    if_neg hcaps]

theorem isrKeyboard_eq
    (h : Prints code → code.toNat < if shiftHeld keys then 54 else 58) :
    isrKeyboard font (stateOf keys) s code =
      (Screen.write font s (typed keys code)).map fun s => (stateOf (keys ++ [code]), s) := by
  by_cases hprints : Prints code
  · have hlt : code.toNat < (stateOf keys).table.length := by
      rw [length_table]
      exact h hprints
    rw [isrKeyboard_of_prints hprints, typed, if_pos hprints, List.getElem?_eq_getElem hlt,
      Option.getD_some, stateOf_of_not hprints.not_isShift hprints.2.2.2, Screen.write,
      List.foldlM_cons]
    dsimp only
    cases Screen.printChar font s (stateOf keys).table[code.toNat] 0xffffff with
    | error e => rfl
    | ok s₁ => rfl
  · rw [isrKeyboard_of_not_prints hprints, typed, if_neg hprints]
    rfl

theorem isrKeyboard_outside
    (h : ¬(Prints code → code.toNat < if shiftHeld keys then 54 else 58)) :
    isrKeyboard font (stateOf keys) s code = .error .outOfBounds := by
  rw [Classical.not_imp] at h
  rw [isrKeyboard_of_prints h.1, List.getElem?_eq_none (by rw [length_table]; omega)]

/-! ## All events -/

theorem hasAll_append {width height : Nat} {xs ys : List UInt8} :
    t.HasAll font width height (xs ++ ys) ↔ t.HasAll font width height xs ∧
      (xs.foldl (Console.put (Console.columns width) (Console.rows height)) t).HasAll
        font width height ys := by
  induction xs generalizing t with
  | nil => exact ⟨fun h => ⟨trivial, h⟩, fun h => h.2⟩
  | cons c xs ih =>
      rw [List.cons_append, Console.HasAll, Console.HasAll, ih, and_assoc, List.foldl_cons]

/-- What is typed and written goes to the console, as long as the tables have it. -/
theorem exec_all (hs : s.Fits) (hwide : s.width.toNat ≤ 65526) (h : s.Displays font t)
    (hall : t.HasAll font s.width.toNat s.height.toNat (text keys es)) :
    (InTables keys es → ∃ s', es.foldlM (exec font) (stateOf keys, s) =
        .ok (stateOf (keys ++ keysOf es), s') ∧ s.SameSize s' ∧
        s'.Displays font ((text keys es).foldl (Console.put (Console.columns s.width.toNat)
          (Console.rows s.height.toNat)) t)) ∧
      (¬InTables keys es → es.foldlM (exec font) (stateOf keys, s) = .error .outOfBounds) := by
  induction es generalizing s t keys with
  | nil =>
      refine ⟨fun _ => ⟨s, ?_, ⟨rfl, rfl, rfl⟩, h⟩, fun hnot => absurd trivial hnot⟩
      rw [keysOf, List.append_nil]
      rfl
  | cons e es ih =>
      cases e with
      | key code =>
          rw [text, hasAll_append] at hall
          rw [List.foldlM_cons, exec, InTables, keysOf, text, List.foldl_append]
          by_cases hkey : Prints code → code.toNat < if shiftHeld keys then 54 else 58
          · obtain ⟨s₁, hret, hsize, hshown⟩ := h.write hs hwide hall.1
            obtain ⟨hok, herror⟩ := ih (hsize.fits hs) (by rw [hsize.width]; exact hwide) hshown
              (by rw [hsize.width, hsize.height]; exact hall.2)
            rw [isrKeyboard_eq hkey, hret]
            refine ⟨fun hin => ?_, fun hout => herror fun hin => hout ⟨hkey, hin⟩⟩
            obtain ⟨s', hrest, hsize', hshown'⟩ := hok hin.2
            rw [hsize.width, hsize.height] at hshown'
            rw [← List.append_cons] at hrest
            exact ⟨s', hrest, hsize.trans hsize', hshown'⟩
          · rw [isrKeyboard_outside hkey]
            exact ⟨fun hin => absurd hin.1 hkey, fun _ => rfl⟩
      | write buffer =>
          rw [text, hasAll_append] at hall
          rw [List.foldlM_cons, exec, InTables, keysOf, text, List.foldl_append]
          obtain ⟨s₁, hret, hsize, hshown⟩ := h.write hs hwide hall.1
          obtain ⟨hok, herror⟩ := ih (hsize.fits hs) (by rw [hsize.width]; exact hwide) hshown
            (by rw [hsize.width, hsize.height]; exact hall.2)
          rw [hret]
          refine ⟨fun hin => ?_, herror⟩
          obtain ⟨s', hrest, hsize', hshown'⟩ := hok hin
          rw [hsize.width, hsize.height] at hshown'
          exact ⟨s', hrest, hsize.trans hsize', hshown'⟩

/-- From `video_init` on, in any order of keys pressed and released and of writes, with
every character at a place on the screen: no read is behind a table exactly when each key
that prints is one of the first 58, or of the first 54 while shift is held; and then shift
is held when the last press or release of a shift key was a press, caps lock is on behind
an odd number of presses, and the framebuffer is the picture of the typed and written
text. -/
theorem keyboard_console (font frameBuffer) {pitch width height : UInt16}
    (hwidth : 10 ≤ width.toNat) (hwide : width.toNat ≤ 65526) (hheight : 18 ≤ height.toNat)
    (hpitch : width.toNat ≤ pitch.toNat / 4) (es : List Event)
    (hall : Console.blank.HasAll font width.toNat height.toNat (text [] es)) :
    ∃ s, Screen.videoInit frameBuffer pitch width height = .ok s ∧
      ((∃ t, es.foldlM (exec font) (⟨false, false⟩, s) = .ok t) ↔ InTables [] es) ∧
      ∀ state s', es.foldlM (exec font) (⟨false, false⟩, s) = .ok (state, s') →
        state = ⟨shiftHeld (keysOf es), capsOn (keysOf es)⟩ ∧
        let t := (text [] es).foldl
          (Console.put (Console.columns width.toNat) (Console.rows height.toNat)) .blank
        ∀ x < width.toNat, ∀ y < height.toNat,
          (t.Lit font x y → s'.pixel x y = 0xffffff) ∧
            (¬t.Lit font x y → s'.pixel x y = 0x8075FF) := by
  obtain ⟨s, hinit, hfits, hw, hh, hblank⟩ :=
    Screen.videoInit_ok font frameBuffer hwidth hheight hpitch
  have hall' : Console.blank.HasAll font s.width.toNat s.height.toNat (text [] es) := by
    rw [hw, hh]
    exact hall
  obtain ⟨hok, herror⟩ := exec_all hfits (by rw [hw]; exact hwide) hblank hall'
  rw [hw, hh] at hok
  refine ⟨s, hinit, ⟨fun hret => ?_, fun hin => ?_⟩, fun state s' hret => ?_⟩
  · obtain ⟨t, ht⟩ := hret
    by_contra hout
    have hfault : es.foldlM (exec font) (⟨false, false⟩, s) = .error .outOfBounds := herror hout
    rw [ht] at hfault
    cases hfault
  · obtain ⟨s', hret, _⟩ := hok hin
    exact ⟨_, hret⟩
  · have hin : InTables [] es := by
      by_contra hout
      have hfault : es.foldlM (exec font) (⟨false, false⟩, s) = .error .outOfBounds :=
        herror hout
      rw [hret] at hfault
      cases hfault
    obtain ⟨s₁, hret₁, hsize₁, hshown⟩ := hok hin
    have hsame₁ := Except.ok.inj (hret.symm.trans hret₁)
    rw [Prod.mk.injEq] at hsame₁
    obtain ⟨rfl, rfl⟩ := hsame₁
    refine ⟨rfl, fun x hx y hy => ?_⟩
    rw [← hw, ← hsize₁.width] at hx
    rw [← hh, ← hsize₁.height] at hy
    exact ⟨hshown.lit hx hy, hshown.dark hx hy⟩

/-- With shift held `a` is `A`; a space is behind the table then, and has its place in it
without shift. -/
theorem keyboard_console_shift :
    (∃ s s', Screen.videoInit (fun _ => 0) 160 40 36 = .ok s ∧
      [.key LSHIFT, .key 0x1E, .key (LSHIFT + 0x80), .key 0x39].foldlM (exec letterA)
        (⟨false, false⟩, s) = .ok (⟨false, false⟩, s') ∧ s'.pixel 3 4 = 0xffffff) ∧
    ∃ s, Screen.videoInit (fun _ => 0) 160 40 36 = .ok s ∧
      ¬∃ t, [.key LSHIFT, .key 0x39].foldlM (exec letterA) (⟨false, false⟩, s) = .ok t := by
  have hwidth : 10 ≤ (40 : UInt16).toNat := by decide
  have hheight : 18 ≤ (36 : UInt16).toNat := by decide
  have hpitch : (40 : UInt16).toNat ≤ (160 : UInt16).toNat / 4 := by decide
  constructor
  · obtain ⟨s, hinit, hiff, hall⟩ := keyboard_console letterA (fun _ => 0) hwidth (by decide)
      hheight hpitch [.key LSHIFT, .key 0x1E, .key (LSHIFT + 0x80), .key 0x39]
      (by decide +kernel)
    obtain ⟨⟨state, s'⟩, hret⟩ := hiff.mpr ⟨by decide, by decide, by decide, by decide, trivial⟩
    obtain ⟨rfl, hpixels⟩ := hall state s' hret
    refine ⟨s, s', hinit, hret, (hpixels 3 (by decide) 4 (by decide)).1 ?_⟩
    exact ⟨65, by decide +kernel, by decide, by decide, by decide⟩
  · obtain ⟨s, hinit, hiff, _⟩ := keyboard_console letterA (fun _ => 0) hwidth (by decide)
      hheight hpitch [.key LSHIFT, .key 0x39] (by decide +kernel)
    refine ⟨s, hinit, fun hret => ?_⟩
    obtain ⟨_, hspace, _⟩ := hiff.mp hret
    exact absurd hspace (by decide)

end Keyboard

end Toystar.Drivers
