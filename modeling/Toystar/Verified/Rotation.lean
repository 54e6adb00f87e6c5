import Mathlib.Data.Int.ModEq
import Mathlib.Data.List.Rotate

/-!
# Taking turns

A line whose first member goes to the end at each turn is, after `m` turns, rotated by
`m`.  Everybody in it is first exactly once in any turns as many as the line is long.
-/

namespace Toystar.Verified

variable {α : Type} {l : List α} {x : α} {i m : Nat}

/-- Who is first after `m` turns. -/
theorem head?_rotate (hl : l ≠ []) (m : Nat) : (l.rotate m).head? = l[m % l.length]? := by
  have hpos := List.length_pos_iff.mpr hl
  rw [List.head?_eq_getElem?, List.getElem?_rotate hpos, Nat.zero_add]

/-- With distinct members, member `i` is first after exactly the turns that are `i` modulo
the length of the line. -/
theorem head?_rotate_eq_iff (hl : l.Nodup) (hi : i < l.length) (m : Nat) :
    (l.rotate m).head? = some l[i] ↔ m % l.length = i := by
  have hpos : 0 < l.length := by omega
  rw [head?_rotate (List.length_pos_iff.mp hpos) m]
  have hlt : m % l.length < l.length := Nat.mod_lt _ hpos
  rw [List.getElem?_eq_getElem hlt, Option.some_inj]
  exact hl.getElem_inj_iff

/-- Everybody's turn comes once in as many turns as there are members. -/
theorem existsUnique_turn (hl : l.Nodup) (hx : x ∈ l) (start : Nat) :
    ∃! m, start ≤ m ∧ m < start + l.length ∧ (l.rotate m).head? = some x := by
  obtain ⟨i, hi, rfl⟩ := List.getElem_of_mem hx
  simp only [head?_rotate_eq_iff hl hi]
  have hpos : 0 < l.length := by omega
  have hlt : start % l.length < l.length := Nat.mod_lt _ hpos
  have hdiv := Nat.div_add_mod start l.length
  -- the distance from `start` to the turn
  obtain ⟨d, hd⟩ : ∃ d, d = (i + l.length - start % l.length) % l.length := ⟨_, rfl⟩
  have hturn : (start + d) % l.length = i := by
    have hsum : start + (i + l.length - start % l.length) =
        l.length * (start / l.length) + (i + l.length) := by omega
    rw [hd, Nat.add_mod_mod, hsum, Nat.mul_add_mod, Nat.add_mod_right, Nat.mod_eq_of_lt hi]
  have hdlt : d < l.length := by
    rw [hd]
    exact Nat.mod_lt _ hpos
  refine ⟨start + d, ⟨by omega, by omega, hturn⟩, ?_⟩
  rintro m ⟨hlo, hhi, hm⟩
  have hmod : m ≡ start + d [MOD l.length] := hm.trans hturn.symm
  apply hmod.eq_of_abs_lt
  rw [abs_lt]
  omega

end Toystar.Verified
