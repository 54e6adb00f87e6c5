import Mathlib.Data.Nat.Digits.Lemmas
import Toystar.Klibc.Strings

/-!
# Numerals

`itoa` and `atoi` of `klibc/strings.cpp`.  `itoa` writes the digits from the last one on
and reverses them in place, behind the prefix `0x` for base 16.  `charBuffer` is a list of
bytes whose length is that of the array: to write behind it is the fault `outOfBounds`.
It has 20 bytes, which is one too few for the 20 decimal digits of the largest numbers and
their NUL (`itoa_fits_iff`).
-/

namespace Toystar.Klibc

open Toystar.Kernel

/-- `charBuffer`. -/
abbrev CharBuffer := List UInt8

namespace CharBuffer

/-- `charBuffer[i]`. -/
def load (buf : CharBuffer) (i : Nat) : Except Fault UInt8 :=
  match buf[i]? with
  | some c => .ok c
  | none => .error .outOfBounds

/-- `charBuffer[i] = c`. -/
def store (buf : CharBuffer) (i : Nat) (c : UInt8) : Except Fault CharBuffer :=
  if i < buf.length then .ok (buf.set i c) else .error .outOfBounds

end CharBuffer

namespace CStr

/-- `(digit <= 9) ? digit + '0' : digit - 10 + 'A'`. -/
def digitChar (digit : Nat) : UInt8 :=
  UInt8.ofNat (if digit ≤ 9 then digit + 48 else digit - 10 + 65)

/-- The digits of `itoa`, from index `i` on: where they end.  A `size_t` has at most 64. -/
def putDigits (base : Nat) : Nat → Nat → Nat → CharBuffer → Except Fault (Nat × CharBuffer)
  | 0, _, _, _ => .error .fuel
  | fuel + 1, number, i, buf =>
      if number = 0 then .ok (i, buf)
      else do
        let buf ← buf.store i (digitChar (number % base))
        putDigits base fuel (number / base) (i + 1) buf

/-- The exchange of `charBuffer[c]` and `charBuffer[end]` until the indices meet. -/
def swapEnds (c : Nat) : Nat → CharBuffer → Except Fault CharBuffer
  | 0, buf => .ok buf
  | last + 1, buf =>
      if c < last + 1 then do
        let front ← buf.load c
        let buf ← buf.store c (← buf.load (last + 1))
        let buf ← buf.store (last + 1) front
        swapEnds (c + 1) last buf
      else .ok buf

/-- The prefix of `itoa`, and how long it is.  The sign is for a number that is 0, which
never comes here. -/
def putPrefix (number base : Nat) (buf : CharBuffer) : Except Fault (Nat × CharBuffer) := do
  if number = 0 then return (1, ← buf.store 0 45)
  if base = 16 then
    let buf ← buf.store 0 48
    return (2, ← buf.store 1 120)
  return (0, buf)

/-- `itoa`: the string it returns, and `charBuffer`. -/
def itoa (buf : CharBuffer) (number base : Nat) : Except Fault (CStr × CharBuffer) := do
  if number = 0 ∨ (base ≠ 16 ∧ base ≠ 10) then return ([48], buf)
  let (c, buf) ← putPrefix number base buf
  let (i, buf) ← putDigits base 64 number c buf
  let buf ← swapEnds c (i - 1) buf
  let buf ← buf.store i 0
  return (← ofBytes buf, buf)

/-- `num *= 10; num += str[i] - '0';` where `char` is signed. -/
def decimalStep (num : Nat) (c : UInt8) : Nat :=
  (((num * 10 : Nat) + (c.toInt8.toInt - 48)) % 2 ^ 64).toNat

/-- `atoi`. -/
def atoi (str : CStr) : Nat :=
  if str.headD 0 = 45 then (2 ^ 64 - (str.drop 1).foldl decimalStep 0) % 2 ^ 64
  else str.foldl decimalStep 0

/-- The numeral of `n`: its digits, the most significant first. -/
def numeral (base n : Nat) : CStr := (Nat.digits base n).reverse.map digitChar

end CStr

/-! ## The buffer -/

namespace CharBuffer

variable {front back : List UInt8} {c d : UInt8} {i : Nat}

theorem load_append (hi : front.length = i) : load (front ++ c :: back) i = .ok c := by
  rw [load, ← hi, List.getElem?_append_right (le_refl _), Nat.sub_self]
  rfl

theorem store_append (hi : front.length = i) :
    store (front ++ c :: back) i d = .ok (front ++ d :: back) := by
  have hlt : i < (front ++ c :: back).length := by
    rw [List.length_append, List.length_cons]
    omega
  rw [store, if_pos hlt, ← hi, List.set_append_right _ _ (le_refl _), Nat.sub_self]
  rfl

/-- There is no byte behind the array. -/
theorem store_end (buf : CharBuffer) (hi : buf.length ≤ i) :
    store buf i c = .error .outOfBounds := if_neg (by omega)

end CharBuffer

namespace CStr

variable {front back xs : List UInt8} {base n c e i : Nat}

/-! ## The loops -/

/-- The digits come out with the least significant first. -/
theorem putDigits_eq (hbase : 1 < base) (fuel : Nat) (hn : n < base ^ fuel)
    (hi : front.length = i) (hfit : (Nat.digits base n).length ≤ back.length) :
    putDigits base (fuel + 1) n i (front ++ back) =
      .ok (i + (Nat.digits base n).length,
        front ++ (Nat.digits base n).map digitChar ++
          back.drop (Nat.digits base n).length) := by
  induction fuel generalizing n i front back with
  | zero =>
      obtain rfl : n = 0 := by
        rw [pow_zero] at hn
        omega
      simp [putDigits]
  | succ fuel ih =>
      rcases Nat.eq_zero_or_pos n with rfl | hpos
      · simp [putDigits]
      · rw [Nat.digits_def' hbase hpos] at hfit ⊢
        cases back with
        | nil => simp at hfit
        | cons b back =>
            rw [List.length_cons, List.length_cons, Nat.add_le_add_iff_right] at hfit
            have hdiv : n / base < base ^ fuel := by
              rw [Nat.div_lt_iff_lt_mul (by omega), ← pow_succ]
              exact hn
            have hfront : (front ++ [digitChar (n % base)]).length = i + 1 := by
              rw [List.length_append, List.length_singleton, hi]
            have hrest := ih hdiv hfront hfit
            rw [List.append_assoc front, List.singleton_append] at hrest
            rw [putDigits, if_neg hpos.ne', CharBuffer.store_append hi, ok_bind, hrest]
            simp only [List.append_assoc, List.length_cons, List.map_cons, List.cons_append,
              List.nil_append, List.drop_succ_cons]
            rw [Nat.add_assoc, Nat.add_comm 1]

/-- What is between the indices is reversed. -/
theorem swapEnds_eq (hc : front.length = c) (hlen : c + xs.length = e + 1) :
    swapEnds c e (front ++ xs ++ back) = .ok (front ++ xs.reverse ++ back) := by
  induction e generalizing c front xs back with
  | zero =>
      rw [swapEnds]
      match xs, hlen with
      | [], _ => rfl
      | [x], _ => rfl
      | x :: y :: xs, hlen =>
          rw [List.length_cons, List.length_cons] at hlen
          omega
  | succ e ih =>
      rw [swapEnds]
      by_cases hlt : c < e + 1
      · rw [if_pos hlt]
        cases xs with
        | nil =>
            rw [List.length_nil] at hlen
            omega
        | cons x xs =>
            rcases List.eq_nil_or_concat xs with rfl | ⟨ys, y, rfl⟩
            · rw [List.length_singleton] at hlen
              omega
            · rw [List.concat_eq_append, List.length_cons, List.length_append,
                List.length_singleton] at hlen
              have hlast : (front ++ x :: ys).length = e + 1 := by
                rw [List.length_append, List.length_cons]
                omega
              have hlast' : (front ++ y :: ys).length = e + 1 := by
                rw [List.length_append, List.length_cons]
                omega
              have hfront : (front ++ [y]).length = c + 1 := by
                rw [List.length_append, List.length_singleton, hc]
              have hload : CharBuffer.load (front ++ x :: (ys ++ y :: back)) (e + 1) = .ok y := by
                have hend : CharBuffer.load ((front ++ x :: ys) ++ y :: back) (e + 1) = .ok y :=
                  CharBuffer.load_append hlast
                rw [List.append_assoc, List.cons_append] at hend
                exact hend
              have hstore : CharBuffer.store (front ++ y :: (ys ++ y :: back)) (e + 1) x =
                  .ok (front ++ y :: (ys ++ x :: back)) := by
                have hend : CharBuffer.store ((front ++ y :: ys) ++ y :: back) (e + 1) x =
                    .ok ((front ++ y :: ys) ++ x :: back) := CharBuffer.store_append hlast'
                rw [List.append_assoc, List.cons_append, List.append_assoc,
                  List.cons_append] at hend
                exact hend
              have hinner : swapEnds (c + 1) e ((front ++ [y]) ++ ys ++ x :: back) =
                  .ok ((front ++ [y]) ++ ys.reverse ++ x :: back) := ih hfront (by omega)
              simp only [List.append_assoc, List.cons_append, List.nil_append] at hinner
              simp only [List.concat_eq_append, List.append_assoc, List.cons_append,
                List.reverse_cons, List.reverse_append, List.reverse_nil, List.nil_append]
              rw [CharBuffer.load_append hc, ok_bind, hload, ok_bind,
                CharBuffer.store_append hc, ok_bind, hstore, ok_bind, hinner]
      · rw [if_neg hlt]
        match xs, hlen with
        | [], _ => rfl
        | [x], _ => rfl
        | x :: y :: xs, hlen =>
            rw [List.length_cons, List.length_cons] at hlen
            omega

/-! ## `itoa` -/

theorem digitChar_ne_zero {d : Nat} (hd : d < 16) : digitChar d ≠ 0 := by
  revert d
  decide

theorem zero_notMem_numeral (hbase : 1 < base) (hle : base ≤ 16) (n : Nat) :
    0 ∉ numeral base n := by
  intro h
  obtain ⟨d, hd, hzero⟩ := List.mem_map.mp h
  have hlt := Nat.digits_lt_base hbase (List.mem_reverse.mp hd)
  exact digitChar_ne_zero (by omega) hzero

theorem length_numeral (base n : Nat) :
    (numeral base n).length = (Nat.digits base n).length := by
  rw [numeral, List.length_map, List.length_reverse]

/-- The loops behind a prefix: the numeral is in place, and its end is known. -/
theorem putNumeral_eq {back : CharBuffer} (hbase : 1 < base) (hn : n < base ^ 63) (hpos : 0 < n)
    (hc : front.length = c) (hfit : (Nat.digits base n).length ≤ back.length) :
    ∃ i buf, putDigits base 64 n c (front ++ back) = .ok (i, buf) ∧
      i = c + (numeral base n).length ∧
      swapEnds c (i - 1) buf =
        .ok (front ++ numeral base n ++ back.drop (numeral base n).length) := by
  have hne : (Nat.digits base n).length ≠ 0 := by
    rw [Ne, List.length_eq_zero_iff, Nat.digits_eq_nil_iff_eq_zero]
    omega
  refine ⟨_, _, putDigits_eq hbase 63 hn hc hfit, ?_, ?_⟩
  · rw [length_numeral]
  · have hlen : c + ((Nat.digits base n).map digitChar).length =
        c + (Nat.digits base n).length - 1 + 1 := by
      rw [List.length_map]
      omega
    rw [swapEnds_eq hc hlen, length_numeral, numeral, List.map_reverse]

/-- The prefix of a numeral. -/
def radixPrefix (base : Nat) : CStr := if base = 16 then [48, 120] else []

theorem putPrefix_eq {buf : CharBuffer} (hpos : 0 < n)
    (hlen : (radixPrefix base).length ≤ buf.length) :
    putPrefix n base buf = .ok ((radixPrefix base).length,
      radixPrefix base ++ buf.drop (radixPrefix base).length) := by
  rw [putPrefix, if_neg hpos.ne']
  by_cases hbase : base = 16
  · subst hbase
    match buf, hlen with
    | a :: b :: buf, _ => rfl
  · rw [radixPrefix, if_neg hbase, if_neg hbase]
    rfl

theorem zero_notMem_radixPrefix (base : Nat) : 0 ∉ radixPrefix base := by
  rw [radixPrefix]
  split
  · decide
  · exact List.not_mem_nil

/-- `itoa` of a positive number, in an array with room for the digits: it returns the
numeral behind its prefix when there is room for the NUL too, and else writes behind the
array. -/
theorem itoa_eq {buf : CharBuffer} (hbase : base = 16 ∨ base = 10) (hpos : 0 < n)
    (hn : n < 2 ^ 64) (hlen : (radixPrefix base ++ numeral base n).length ≤ buf.length) :
    if (radixPrefix base ++ numeral base n).length < buf.length then
      ∃ buf', itoa buf n base = .ok (radixPrefix base ++ numeral base n, buf')
    else itoa buf n base = .error .outOfBounds := by
  have hone : 1 < base := by omega
  have hlt : n < base ^ 63 := by
    rcases hbase with rfl | rfl
    · exact hn.trans (by norm_num)
    · exact hn.trans (by norm_num)
  obtain ⟨str, hstr⟩ : ∃ str, str = radixPrefix base ++ numeral base n := ⟨_, rfl⟩
  have hnul : 0 ∉ str := by
    rw [hstr, List.mem_append, not_or]
    exact ⟨zero_notMem_radixPrefix base, zero_notMem_numeral hone (by omega) n⟩
  rw [List.length_append] at hlen
  have hfit : (Nat.digits base n).length ≤ (buf.drop (radixPrefix base).length).length := by
    rw [List.length_drop, ← length_numeral]
    omega
  obtain ⟨i, buf₁, hput, hi, hswap⟩ := putNumeral_eq hone hlt hpos
    (rfl : (radixPrefix base).length = _) hfit
  have hend : i = str.length := by
    rw [hi, hstr, List.length_append]
  have hret : itoa buf n base = (do
      let buf ← CharBuffer.store
        (str ++ (buf.drop (radixPrefix base).length).drop (numeral base n).length) str.length 0
      return (← ofBytes buf, buf)) := by
    rw [itoa, if_neg (by omega), putPrefix_eq hpos (by omega), ok_bind]
    dsimp only
    rw [hput, ok_bind]
    dsimp only
    rw [hswap, ok_bind, hend, hstr]
  rw [hret, ← hstr, List.drop_drop]
  split
  · rename_i hroom
    obtain ⟨b, rest, hrest⟩ : ∃ b rest, buf.drop
        ((radixPrefix base).length + (numeral base n).length) = b :: rest := by
      rw [hstr, List.length_append] at hroom
      exact ⟨_, _, List.drop_eq_getElem_cons hroom⟩
    rw [hrest, CharBuffer.store_append rfl, ok_bind, ofBytes_append hnul]
    exact ⟨_, rfl⟩
  · rename_i hroom
    rw [hstr, List.length_append] at hroom
    rw [List.drop_eq_nil_of_le (by omega), List.append_nil, CharBuffer.store_end _ (le_refl _)]
    rfl

/-! ## `atoi` -/

/-- The value of a digit that `itoa` writes for base 10. -/
theorem decimalStep_digitChar {d : Nat} (hd : d < 10) (num : Nat) :
    decimalStep num (digitChar d) = (num * 10 + d) % 2 ^ 64 := by
  have hsigned : (digitChar d).toInt8.toInt = d + 48 := by
    revert d
    decide
  rw [decimalStep, hsigned]
  omega

/-- Reading digits as far as a `size_t` goes. -/
theorem foldl_decimalStep {ds : List Nat} (hds : ∀ d ∈ ds, d < 10) :
    (ds.reverse.map digitChar).foldl decimalStep 0 = Nat.ofDigits 10 ds % 2 ^ 64 := by
  induction ds with
  | nil => rfl
  | cons d ds ih =>
      rw [List.forall_mem_cons] at hds
      rw [List.reverse_cons, List.map_append, List.map_singleton, List.foldl_append,
        List.foldl_cons, List.foldl_nil, ih hds.2, decimalStep_digitChar hds.1,
        Nat.ofDigits_cons]
      omega

theorem atoi_numeral (hn : n < 2 ^ 64) : atoi (numeral 10 n) = n := by
  have hds : ∀ d ∈ Nat.digits 10 n, d < 10 := fun d hd => Nat.digits_lt_base (by decide) hd
  have hdigit : ∀ d < 10, digitChar d ≠ 45 := by decide
  have hsign : (numeral 10 n).headD 0 ≠ 45 := by
    cases hhead : numeral 10 n with
    | nil => decide
    | cons c str =>
        obtain ⟨d, hd, rfl⟩ : ∃ d ∈ (Nat.digits 10 n).reverse, digitChar d = c :=
          List.mem_map.mp (by
            rw [← numeral, hhead]
            exact List.mem_cons_self)
        exact hdigit d (hds d (List.mem_reverse.mp hd))
  rw [atoi, if_neg hsign, numeral, foldl_decimalStep hds, Nat.ofDigits_digits,
    Nat.mod_eq_of_lt hn]

/-- A numeral does not begin with `0`. -/
theorem head?_numeral_ne (hbase : 1 < base) (hle : base ≤ 16) (hpos : 0 < n) :
    (numeral base n).head? ≠ some 48 := by
  have hzero : ∀ d < 16, digitChar d = 48 → d = 0 := by decide
  have hne : Nat.digits base n ≠ [] := Nat.digits_ne_nil_iff_ne_zero.mpr hpos.ne'
  have hlast := Nat.getLast_digit_ne_zero base hpos.ne'
  rw [numeral, List.head?_map, List.head?_reverse, List.getLast?_eq_some_getLast hne,
    Option.map_some, Ne, Option.some_inj]
  intro h
  have hlt := Nat.digits_lt_base hbase (List.getLast_mem hne)
  exact hlast (hzero _ (by omega) h)

/-- In a buffer that is long enough `itoa` writes the numerals of every positive number,
and `atoi` reads the decimal one back. -/
theorem itoa_numeral {n : UInt64} (hpos : 0 < n) {buf : CharBuffer} (hlong : 21 ≤ buf.length) :
    (∃ buf', itoa buf n.toNat 10 = .ok (numeral 10 n.toNat, buf')) ∧
    (∃ buf', itoa buf n.toNat 16 = .ok ([48, 120] ++ numeral 16 n.toNat, buf')) ∧
    (numeral 10 n.toNat).head? ≠ some 48 ∧ (numeral 16 n.toNat).head? ≠ some 48 ∧
    atoi (numeral 10 n.toNat) = n.toNat := by
  have hn : n.toNat < 2 ^ 64 := n.toNat_lt
  have hpos' : 0 < n.toNat := by simpa using UInt64.lt_iff_toNat_lt.mp hpos
  have hten : (numeral 10 n.toNat).length ≤ 20 := by
    rw [length_numeral, Nat.digits_length_le_iff (by decide)]
    exact hn.trans (by norm_num)
  have hsixteen : (numeral 16 n.toNat).length ≤ 16 := by
    rw [length_numeral, Nat.digits_length_le_iff (by decide)]
    exact hn.trans_le (by norm_num)
  refine ⟨?_, ?_, head?_numeral_ne (by decide) (by decide) hpos',
    head?_numeral_ne (by decide) (by decide) hpos', atoi_numeral hn⟩
  · have hlen : (radixPrefix 10 ++ numeral 10 n.toNat).length < buf.length := by
      rw [List.length_append, radixPrefix, if_neg (by decide), List.length_nil]
      omega
    have hret := itoa_eq (.inr rfl) hpos' hn hlen.le
    rw [if_pos hlen] at hret
    exact hret
  · have hlen : (radixPrefix 16 ++ numeral 16 n.toNat).length < buf.length := by
      rw [List.length_append, radixPrefix, if_pos rfl, List.length_cons, List.length_singleton]
      omega
    have hret := itoa_eq (.inl rfl) hpos' hn hlen.le
    rw [if_pos hlen] at hret
    exact hret

/-- The number 255 in both bases. -/
theorem itoa_numeral_255 :
    (∃ buf', itoa (List.replicate 21 0) 255 10 = .ok ([50, 53, 53], buf')) ∧
    (∃ buf', itoa (List.replicate 21 0) 255 16 = .ok ([48, 120, 70, 70], buf')) ∧
    atoi [50, 53, 53] = 255 := by
  have hten : numeral 10 255 = [50, 53, 53] := by simp [numeral, digitChar]
  have hsixteen : numeral 16 255 = [70, 70] := by simp [numeral, digitChar]
  obtain ⟨hdec, hhex, _, _, hback⟩ :=
    @itoa_numeral 255 (by decide) (List.replicate 21 0) (by decide)
  rw [show (255 : UInt64).toNat = 255 from rfl, hten] at hdec hback
  rw [show (255 : UInt64).toNat = 255 from rfl, hsixteen] at hhex
  exact ⟨hdec, hhex, hback⟩

/-- How long the strings of `itoa` get. -/
theorem length_itoa (hbase : base = 10 ∨ base = 16) (hn : n < 2 ^ 64) :
    (radixPrefix base ++ numeral base n).length ≤ 20 ∧
      ((radixPrefix base ++ numeral base n).length < 20 ↔ base = 16 ∨ n < 10 ^ 19) := by
  rw [List.length_append, length_numeral]
  rcases hbase with rfl | rfl
  · have hle : (Nat.digits 10 n).length ≤ 20 := by
      rw [Nat.digits_length_le_iff (by decide)]
      exact hn.trans (by norm_num)
    have hiff : (Nat.digits 10 n).length ≤ 19 ↔ n < 10 ^ 19 :=
      Nat.digits_length_le_iff (by decide) n
    rw [radixPrefix, if_neg (by decide), List.length_nil]
    omega
  · have hle : (Nat.digits 16 n).length ≤ 16 := by
      rw [Nat.digits_length_le_iff (by decide)]
      exact hn.trans_le (by norm_num)
    rw [radixPrefix, if_pos rfl, List.length_cons, List.length_singleton]
    omega

/-- In its 20 bytes every number has room for base 16, and for base 10 those with at most
19 digits have; the others write their NUL behind it. -/
theorem itoa_fits_iff (number : UInt64) {base : Nat} (hbase : base = 10 ∨ base = 16)
    {buf : CharBuffer} (hbuf : buf.length = 20) :
    (itoa buf number.toNat base ≠ .error .outOfBounds ↔
      base = 16 ∨ number.toNat < 10 ^ 19) ∧
    (base = 16 ∨ number.toNat < 10 ^ 19 → ∃ r, itoa buf number.toNat base = .ok r) := by
  obtain ⟨hle, hiff⟩ := length_itoa hbase number.toNat_lt
  rcases Nat.eq_zero_or_pos number.toNat with hzero | hpos
  · have hret : itoa buf number.toNat base = .ok ([48], buf) := by
      rw [itoa, if_pos (.inl hzero)]
      rfl
    rw [hret]
    exact ⟨iff_of_true (fun h => by cases h) (.inr (by omega)), fun _ => ⟨_, rfl⟩⟩
  · rw [← hbuf] at hle hiff
    have hret := itoa_eq hbase.symm hpos number.toNat_lt hle
    rw [← hiff]
    split at hret
    · rename_i hroom
      obtain ⟨buf', hret⟩ := hret
      rw [hret]
      exact ⟨iff_of_true (fun h => by cases h) hroom, fun _ => ⟨_, rfl⟩⟩
    · rename_i hroom
      exact ⟨iff_of_false (fun h => h hret) hroom, fun h => absurd h hroom⟩

/-- Nineteen digits. -/
theorem itoa_fits_iff_nineteen :
    ∃ r, itoa (List.replicate 20 0) 9999999999999999999 10 = .ok r :=
  (@itoa_fits_iff 9999999999999999999 10 (.inl rfl) (List.replicate 20 0) rfl).2
    (.inr (by decide))

/-- Twenty digits fill the array, and the NUL comes behind it. -/
theorem twenty_digits_overflow :
    itoa (List.replicate 20 0) 10000000000000000000 10 = .error .outOfBounds := by
  decide +kernel

end CStr

end Toystar.Klibc
