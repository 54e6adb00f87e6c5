import Toystar.Kernel.Lock

/-!
# Strings

The comparisons and `octal_to_int` of `klibc/strings.cpp`.  A `const char*` is the list of bytes
from the pointer on, with a NUL after its last element: advancing a pointer is
`List.drop`, and reading past that NUL is the fault `outOfBounds`.  Both
comparisons return `true` when the strings agree.
-/

namespace Toystar.Klibc

open Toystar.Kernel

/-- The bytes from a `const char*` up to a NUL that is not listed. -/
abbrev CStr := List UInt8

namespace CStr

/-- `'/'` -/
def slash : UInt8 := 47

/-- `'.'` -/
def dot : UInt8 := 46

/-- `str[i]`. -/
def charAt (str : CStr) (i : Nat) : Except Fault UInt8 :=
  match str[i]? with
  | some c => .ok c
  | none => if i = str.length then .ok 0 else .error .outOfBounds

/-- `strlen`. -/
def strlen : CStr → Nat
  | [] => 0
  | c :: str => if c = 0 then 0 else strlen str + 1

/-- The comparison loop of `strncmp` and `strcmp`, from `i` on. -/
def compareFrom (msg1 msg2 : CStr) (i : Nat) : Nat → Except Fault Bool
  | 0 => .ok true
  | n + 1 => do
      if (← charAt msg1 i) ≠ (← charAt msg2 i) then return false
      compareFrom msg1 msg2 (i + 1) n

/-- `strncmp`. -/
def strncmp (msg1 msg2 : CStr) (len : Nat) : Except Fault Bool :=
  compareFrom msg1 msg2 0 len

/-- `strcmp`. -/
def strcmp (msg1 msg2 : CStr) : Except Fault Bool :=
  if strlen msg1 ≠ strlen msg2 then .ok false
  else compareFrom msg1 msg2 0 (strlen msg1)

/-- The string at the start of an array of bytes. -/
def ofBytes : List UInt8 → Except Fault CStr
  | [] => .error .outOfBounds
  | c :: bytes => if c = 0 then .ok [] else do return c :: (← ofBytes bytes)

/-- `num *= 8; num += str[i] - '0';` where `char` is signed. -/
def octalStep (num : Nat) (c : UInt8) : Nat :=
  (((num * 8 : Nat) + (c.toInt8.toInt - 48)) % 2 ^ 64).toNat

/-- `octal_to_int`. -/
def octalToInt (str : CStr) : Nat := str.foldl octalStep 0

/-! ## On strings without a NUL inside -/

variable {str name path : CStr}

theorem strlen_eq (h : 0 ∉ str) : strlen str = str.length := by
  induction str with
  | nil => rfl
  | cons c str ih =>
      rw [List.mem_cons, not_or] at h
      rw [strlen, if_neg (Ne.symm h.1), ih h.2, List.length_cons]

theorem charAt_of_le {i : Nat} (hi : i ≤ str.length) :
    charAt str i = .ok (str[i]?.getD 0) := by
  unfold charAt
  cases hc : str[i]? with
  | some c => rfl
  | none =>
      rw [List.getElem?_eq_none_iff] at hc
      simp only [if_pos (show i = str.length by omega), Option.getD_none]

/-- The loop compares the rests behind a common part. -/
theorem compareFrom_append {x y : CStr} (hx : 0 ∉ x) (a : CStr) :
    compareFrom (a ++ x) (a ++ y) a.length x.length = .ok (x.isPrefixOf y) := by
  induction x generalizing a y with
  | nil => rfl
  | cons c x ih =>
      rw [List.mem_cons, not_or] at hx
      rw [List.length_cons, compareFrom, charAt_of_le (by simp), charAt_of_le (by simp)]
      simp only [ok_bind, List.getElem?_append_right (le_refl a.length), Nat.sub_self,
        List.getElem?_cons_zero, Option.getD_some]
      cases y with
      | nil =>
          rw [List.getElem?_nil, Option.getD_none, if_pos (Ne.symm hx.1)]
          rfl
      | cons d y =>
          rw [List.getElem?_cons_zero, Option.getD_some]
          by_cases hcd : c = d
          · subst hcd
            have hrest := ih (y := y) hx.2 (a ++ [c])
            rw [List.append_assoc, List.append_assoc, List.length_append] at hrest
            rw [if_neg (by simp)]
            simpa using hrest
          · have hfalse : (c :: x).isPrefixOf (d :: y) = false := by
              simp [List.isPrefixOf, hcd]
            rw [if_pos hcd, hfalse]
            rfl

theorem strncmp_eq (hname : 0 ∉ name) (path : CStr) :
    strncmp name path (strlen name) = .ok (name.isPrefixOf path) := by
  rw [strlen_eq hname]
  exact compareFrom_append hname []

theorem strcmp_eq {msg1 msg2 : CStr} (h₁ : 0 ∉ msg1) (h₂ : 0 ∉ msg2) :
    strcmp msg1 msg2 = .ok (decide (msg1 = msg2)) := by
  unfold strcmp
  rw [strlen_eq h₁, strlen_eq h₂]
  by_cases hlen : msg1.length = msg2.length
  · rw [if_neg (by simpa using hlen)]
    have hcmp := compareFrom_append (y := msg2) h₁ []
    rw [List.nil_append, List.nil_append, List.length_nil] at hcmp
    rw [hcmp, Except.ok.injEq, Bool.eq_iff_iff, List.isPrefixOf_iff_prefix,
      decide_eq_true_eq]
    constructor
    · exact fun hpre => hpre.eq_of_length hlen
    · rintro rfl
      exact List.prefix_refl _
  · rw [if_pos hlen]
    have hne : msg1 ≠ msg2 := fun heq => hlen (by rw [heq])
    simp [hne]

theorem ofBytes_append (hstr : 0 ∉ str) (rest : List UInt8) :
    ofBytes (str ++ 0 :: rest) = .ok str := by
  induction str with
  | nil => rfl
  | cons c str ih =>
      rw [List.mem_cons, not_or] at hstr
      rw [List.cons_append, ofBytes, if_neg (Ne.symm hstr.1), ih hstr.2]
      rfl

/-- A string that was read is what precedes the first NUL. -/
theorem ofBytes_cases {bytes : List UInt8} (h : ofBytes bytes = .ok str) :
    0 ∉ str ∧ ∃ rest, bytes = str ++ 0 :: rest := by
  induction bytes generalizing str with
  | nil => cases h
  | cons c bytes ih =>
      rw [ofBytes] at h
      split at h
      · rename_i hc
        cases h
        exact ⟨List.not_mem_nil, bytes, by rw [hc, List.nil_append]⟩
      · rename_i hc
        rcases bind_eq_ok.mp h with ⟨tail, htail, hstr⟩
        cases hstr
        obtain ⟨hnul, rest, hrest⟩ := ih htail
        rw [List.mem_cons, not_or]
        exact ⟨⟨Ne.symm hc, hnul⟩, rest, by rw [hrest, List.cons_append]⟩

theorem zero_notMem_of_ofBytes {bytes : List UInt8} (h : ofBytes bytes = .ok str) :
    0 ∉ str := (ofBytes_cases h).1

/-- More bytes behind a string do not matter. -/
theorem ofBytes_of_append {bytes : List UInt8} (h : ofBytes bytes = .ok str)
    (more : List UInt8) : ofBytes (bytes ++ more) = .ok str := by
  obtain ⟨hnul, rest, hrest⟩ := ofBytes_cases h
  rw [hrest, List.append_assoc]
  exact ofBytes_append hnul (rest ++ more)

/-! ## Octal numbers -/

/-- An octal digit. -/
def IsOctal (c : UInt8) : Prop := 48 ≤ c.toNat ∧ c.toNat < 56

/-- The number that octal digits denote. -/
def octal (digits : CStr) : Nat := digits.foldl (fun num c => num * 8 + (c.toNat - 48)) 0

theorem octalStep_eq {c : UInt8} (hc : IsOctal c) (num : Nat) :
    octalStep num c = (num * 8 + (c.toNat - 48)) % 2 ^ 64 := by
  rcases hc with ⟨hlo, hhi⟩
  have hsigned : c.toInt8.toInt = c.toNat := by
    refine BitVec.toInt_eq_toNat_of_lt ?_
    change 2 * c.toNat < 2 ^ 8
    omega
  rw [octalStep, hsigned]
  omega

/-- `octal_to_int` reads digits as far as a `size_t` goes. -/
theorem octalToInt_eq {digits : CStr} (h : ∀ c ∈ digits, IsOctal c) :
    octalToInt digits = octal digits % 2 ^ 64 := by
  induction digits using List.reverseRecOn with
  | nil => rfl
  | append_singleton digits c ih =>
      rw [List.forall_mem_append, List.forall_mem_singleton] at h
      have hstep := octalStep_eq h.2 (octalToInt digits)
      rw [octalToInt, octal, List.foldl_concat, List.foldl_concat]
      change octalStep (octalToInt digits) c = (octal digits * 8 + _) % 2 ^ 64
      rw [hstep, ih h.1]
      omega

/-! ## Paths -/

/-- A component of a path: a name that is not empty and has no `/`. -/
def IsComponent (c : CStr) : Prop := c ≠ [] ∧ slash ∉ c ∧ 0 ∉ c

/-- `"/c1/.../cn"`. -/
def joinPath (cs : List CStr) : CStr := cs.flatMap fun c => slash :: c

theorem zero_notMem_joinPath {cs : List CStr} (h : ∀ c ∈ cs, IsComponent c) :
    0 ∉ joinPath cs := by
  unfold joinPath
  rw [List.mem_flatMap]
  rintro ⟨c, hc, hmem⟩
  rcases List.mem_cons.mp hmem with h0 | h0
  · exact absurd h0 (by decide)
  · exact (h c hc).2.2 h0

end CStr

end Toystar.Klibc
