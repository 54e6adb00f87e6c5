import Toystar.Fs.Programs

/-!
# Descriptor tables and handles

An entry of a descriptor table stands for a handle: the mode and the offset are those of
its description, and the file is the one that the filesystem opened for the path
(`Holds`).  A table refines a list of handles entry by entry (`TableRel`), and one entry
at a time changes.
-/

namespace Toystar.Fs

open Toystar.Kernel
open Toystar.Klibc
open Toystar.Memory
open Toystar.Verified

/-! ## Entries -/

/-- The number of an `fs_node` and the path it was opened for. -/
def Stands (opened : List FileDescription) (paths : List (List CStr)) (file : Nat) :
    Option (List CStr) → Prop
  | none => file = 0
  | some path => ∃ (j : Nat) (fd : FileDescription), opened[j]? = some fd ∧
      paths[j]? = some path ∧ file = fd.file + 1

/-- The description at an address is that of a handle. -/
def Holds (descs : Nat → Option FileDescription) (opened : List FileDescription)
    (paths : List (List CStr)) (a : Nat) (h : Handle) : Prop :=
  ∃ d, descs a = some d ∧ d.mode = h.mode ∧ d.offset = h.offset ∧
    Stands opened paths d.file h.file

/-- A table stands for a list of handles. -/
def TableRel (R : Nat → Handle → Prop) (table : List (Option Nat))
    (handles : List (Option Handle)) : Prop :=
  ∀ i : Nat, Option.Rel (Option.Rel R) table[i]? handles[i]?

variable {R R' : Nat → Handle → Prop} {table table' : List (Option Nat)}
  {handles handles' : List (Option Handle)} {h : Handle} {a k : Nat}
  {opened opened' : List FileDescription} {paths paths' : List (List CStr)}

theorem getElem?_of_prefix {α : Type} {xs ys : List α} (h : xs <+: ys) {i : Nat} {x : α}
    (hx : xs[i]? = some x) : ys[i]? = some x := by
  obtain ⟨rest, rfl⟩ := h
  rw [List.getElem?_append_left (List.getElem?_eq_some_iff.mp hx).1, hx]

/-- More opened files do not change what stands for what. -/
theorem Stands.mono {file : Nat} {path : Option (List CStr)} (hs : Stands opened paths file path)
    (hopened : opened <+: opened') (hpaths : paths <+: paths') :
    Stands opened' paths' file path := by
  cases path with
  | none => exact hs
  | some path =>
      obtain ⟨j, fd, hfd, hpath, hfile⟩ := hs
      exact ⟨j, fd, getElem?_of_prefix hopened hfd, getElem?_of_prefix hpaths hpath, hfile⟩

theorem Holds.mono {descs descs' : Nat → Option FileDescription}
    (hh : Holds descs opened paths a h) (hdescs : descs' a = descs a)
    (hopened : opened <+: opened') (hpaths : paths <+: paths') :
    Holds descs' opened' paths' a h := by
  obtain ⟨d, hd, hmode, hoffset, hstands⟩ := hh
  exact ⟨d, hdescs.trans hd, hmode, hoffset, hstands.mono hopened hpaths⟩

namespace TableRel

/-- The entries that are there. -/
theorem imp (hrel : TableRel R table handles)
    (himp : ∀ {i : Nat} {a h}, table[i]? = some (some a) → handles[i]? = some (some h) →
      R a h → R' a h) : TableRel R' table handles := by
  intro i
  have hi := hrel i
  generalize ht : table[i]? = x at *
  generalize hh : handles[i]? = y at *
  cases hi with
  | none => exact .none
  | some hentry =>
      cases hentry with
      | none => exact .some .none
      | some hR => exact .some (.some (himp ht hh hR))

theorem rel (hrel : TableRel R table handles) {i : Nat} (ha : table[i]? = some (some a))
    (hh : handles[i]? = some (some h)) : R a h := by
  have hi := hrel i
  rw [ha, hh, Option.rel_some_some, Option.rel_some_some] at hi
  exact hi

theorem none_iff (hrel : TableRel R table handles) (i : Nat) :
    table[i]? = some none ↔ handles[i]? = some none := by
  have hi := hrel i
  generalize table[i]? = x at *
  generalize handles[i]? = y at *
  cases hi with
  | none => simp
  | some hentry =>
      cases hentry with
      | none => simp
      | some hR => simp

theorem length_eq (hrel : TableRel R table handles) : table.length = handles.length := by
  have hend : ∀ i, table.length ≤ i ↔ handles.length ≤ i := by
    intro i
    rw [← List.getElem?_eq_none_iff, ← List.getElem?_eq_none_iff]
    have hi := hrel i
    generalize table[i]? = x at *
    generalize handles[i]? = y at *
    cases hi with
    | none => simp
    | some hentry => simp
  have hfirst := hend table.length
  have hsecond := hend handles.length
  omega

theorem map {β : Type} {f : β → Nat} {g : β → Handle} {xs : List β}
    (hxs : ∀ x ∈ xs, R (f x) (g x)) :
    TableRel R (xs.map fun x => some (f x)) (xs.map fun x => some (g x)) := by
  intro i
  rw [List.getElem?_map, List.getElem?_map]
  cases hx : xs[i]? with
  | none => exact .none
  | some x => exact .some (.some (hxs x (List.mem_of_getElem? hx)))

/-- One entry changes, and nothing that the others name. -/
theorem update (hrel : TableRel R table handles) {x : Option Nat} {y : Option Handle}
    (hentry : Option.Rel R' x y) (htable : table'[k]? = some x)
    (hhandles : handles'[k]? = some y)
    (hother : ∀ i : Nat, i ≠ k → table'[i]? = table[i]?)
    (hother' : ∀ i : Nat, i ≠ k → handles'[i]? = handles[i]?)
    (himp : ∀ {i : Nat} {a h}, i ≠ k → table[i]? = some (some a) → R a h → R' a h) :
    TableRel R' table' handles' := by
  intro i
  by_cases hi : i = k
  · rw [hi, htable, hhandles]
    exact .some hentry
  · rw [hother i hi, hother' i hi]
    have hold := hrel i
    generalize ht : table[i]? = x at *
    generalize handles[i]? = y at *
    cases hold with
    | none => exact .none
    | some hentry =>
        cases hentry with
        | none => exact .some .none
        | some hR => exact .some (.some (himp hi ht hR))

end TableRel

/-! ## The first free place -/

theorem findIdx_isLeast (handles : List (Option Handle)) :
    IsLeast {k | handles[k]? = some none ∨ k = handles.length}
      (handles.findIdx (·.isNone)) := by
  constructor
  · rcases Nat.lt_or_ge (handles.findIdx (·.isNone)) handles.length with hlt | hge
    · left
      have hnone := List.findIdx_getElem (w := hlt)
      rw [List.getElem?_eq_getElem hlt, Option.isNone_iff_eq_none.mp hnone]
    · exact .inr (Nat.le_antisymm List.findIdx_le_length hge)
  · intro k hk
    rcases hk with hnone | rfl
    · by_contra hlt
      have hklt := (List.getElem?_eq_some_iff.mp hnone).1
      have hnot := List.not_of_lt_findIdx (Nat.lt_of_not_le hlt)
      rw [List.getElem?_eq_getElem hklt, Option.some.injEq] at hnone
      rw [hnone] at hnot
      cases hnot
    · exact List.findIdx_le_length

theorem TableRel.first_eq (hrel : TableRel R table handles) (hk : FdState.FirstFree table k) :
    k = handles.findIdx (·.isNone) := by
  refine hk.unique ?_
  have hleast := findIdx_isLeast handles
  simp only [← hrel.length_eq, ← hrel.none_iff] at hleast
  exact hleast

theorem Programs.getElem?_bindFirst (handles : List (Option Handle)) (h : Handle) :
    (bindFirst handles h).2[(bindFirst handles h).1]? = some (some h) ∧
      ∀ i : Nat, i ≠ (bindFirst handles h).1 →
        (bindFirst handles h).2[i]? = handles[i]? := by
  unfold bindFirst
  dsimp only
  by_cases hlt : handles.findIdx (·.isNone) < handles.length
  · rw [if_pos hlt]
    exact ⟨List.getElem?_set_self hlt, fun i hi => List.getElem?_set_ne hi.symm⟩
  · have hend : handles.findIdx (·.isNone) = handles.length :=
      Nat.le_antisymm List.findIdx_le_length (Nat.le_of_not_lt hlt)
    rw [if_neg hlt, hend]
    refine ⟨List.getElem?_concat_length, fun i hi => ?_⟩
    rcases Nat.lt_or_gt_of_ne hi with hlo | hhi
    · exact List.getElem?_append_left hlo
    · rw [List.getElem?_eq_none hhi.le, List.getElem?_eq_none]
      rw [List.length_append, List.length_singleton]
      omega

end Toystar.Fs
