import Toystar.Fs.Tmpfs
import Toystar.Klibc.Vector
import Toystar.Verified.Run

/-!
# Descriptors

`syscall_open`, `syscall_read`, `syscall_write` and `syscall_close` of
`kernel/fs/files.cpp` on the `fd_list` of one process.  What `Vfs::open` returns is
an argument, null or a new description, and so is the result of `Vfs::read` and
`Vfs::write`, which do not touch the list.

The list is a vector with null entries where descriptors were closed.  As a table of
entries it is disciplined (`descriptor_discipline`): a descriptor names one
description from its `open` to its `close`, and no other descriptor names it.
-/

namespace Toystar.Fs

open Toystar.Kernel
open Toystar.Klibc
open Toystar.Verified

/-- `Vfs::Modes::WRITE`. -/
def WRITE : UInt16 := 2

/-- `Vfs::Modes::READ`. -/
def READ : UInt16 := 4

/-- `-1` in `rax`. -/
def minusOne : Nat := 2 ^ 64 - 1

/-- A process's `fd_list`, the arrays of its vector, and the descriptions by address,
absent when deleted. -/
structure FdState where
  fdList : ToysVector
  arrays : Arrays (Option Nat)
  descs : Nat → Option FileDescription

namespace FdState

/-- `*fd`. -/
def desc (s : FdState) (fd : Nat) : Except Fault FileDescription :=
  match s.descs fd with
  | some d => .ok d
  | none => .error .useAfterFree

def setDesc (s : FdState) (fd : Nat) (d : Option FileDescription) : FdState :=
  { s with descs := Function.update s.descs fd d }

/-- `fd_list.push_back(fd)`. -/
def push (s : FdState) (fd : Option Nat) : Except Fault FdState := do
  let pushed ← s.fdList.pushBack s.arrays fd
  return { s with fdList := pushed.1, arrays := pushed.2 }

/-- The loop of `syscall_open` over `n` entries from index `i` on. -/
def firstNull (s : FdState) : Nat → Nat → Except Fault (Option Nat)
  | 0, _ => .ok none
  | n + 1, i => do
      match ← s.fdList.get s.arrays i with
      | none => return some i
      | some _ => s.firstNull n (i + 1)

/-- `syscall_open` once it has a description: the new `rax`. -/
def bindFirst (s : FdState) (fd : Nat) : Except Fault (Nat × FdState) := do
  match ← s.firstNull s.fdList.size 0 with
  | some i => do
      let arrays ← s.fdList.put s.arrays i (some fd)
      return (i, { s with arrays })
  | none => do
      let s ← s.push (some fd)
      return (s.fdList.size - 1, s)

/-- `syscall_open`.  `opened` is the address and the file of the description that
`Vfs::open` made, with the mode it was given and offset 0. -/
def syscallOpen (s : FdState) (rsi : Nat) (opened : Option (Nat × Nat)) :
    Except Fault (Nat × FdState) :=
  match opened with
  | none => .ok (minusOne, s)
  | some (fd, file) =>
      (s.setDesc fd (some ⟨file, UInt16.ofNat rsi, 0⟩)).bindFirst fd

/-- `syscall_read` and `syscall_write`, which differ in the mode they ask for and in
the call of `Vfs` that gives `result`. -/
def transfer (s : FdState) (mode : UInt16) (rdi rdx result : Nat) :
    Except Fault (Nat × FdState) :=
  if rdi ≥ s.fdList.size then .ok (minusOne, s)
  else do
    match ← s.fdList.get s.arrays rdi with
    | none => return (minusOne, s)
    | some fd => do
        let d ← s.desc fd
        if d.mode &&& mode = 0 then return (minusOne, s)
        else
          return (result,
            s.setDesc fd (some { d with offset := (d.offset + rdx) % 2 ^ 64 }))

/-- `syscall_read`. -/
def syscallRead (s : FdState) (rdi rdx result : Nat) : Except Fault (Nat × FdState) :=
  s.transfer READ rdi rdx result

/-- `syscall_write`. -/
def syscallWrite (s : FdState) (rdi rdx result : Nat) : Except Fault (Nat × FdState) :=
  s.transfer WRITE rdi rdx result

/-- `syscall_close`. -/
def syscallClose (s : FdState) (rdi : Nat) : Except Fault (Nat × FdState) :=
  if rdi ≥ s.fdList.size then .ok (minusOne, s)
  else do
    match ← s.fdList.get s.arrays rdi with
    | none => return (0, s)
    | some fd => do
        let _ ← s.desc fd
        let arrays ← s.fdList.put s.arrays rdi none
        return (0, { s.setDesc fd none with arrays })

/-- The loop in which `create_process` and `syscall_fork` fill a list: one `push_back`
for each description, null or new. -/
def fill (s : FdState) : List (Option (Nat × FileDescription)) → Except Fault FdState
  | [] => .ok s
  | none :: fds => do fill (← s.push none) fds
  | some (fd, d) :: fds => do fill (← (s.setDesc fd (some d)).push (some fd)) fds

/-- The descriptions are new, one after another. -/
def FreshAll : (Nat → Option FileDescription) → List (Option (Nat × FileDescription)) → Prop
  | _, [] => True
  | descs, none :: fds => FreshAll descs fds
  | descs, some (fd, d) :: fds =>
      descs fd = none ∧ FreshAll (Function.update descs fd (some d)) fds

/-- A process with an empty list. -/
def new (arrays : Arrays (Option Nat)) (descs : Nat → Option FileDescription) : FdState :=
  ⟨.new, arrays, descs⟩

/-! ## The table -/

/-- The entries of the list. -/
def table (s : FdState) : List (Option Nat) := s.fdList.elements s.arrays

/-- Descriptor `i` names the description at `fd`. -/
def Bound (s : FdState) (i fd : Nat) : Prop := s.table[i]? = some (some fd)

/-- The vector holds the table, and the descriptions in it exist, each in one place. -/
structure WellFormed (s : FdState) : Prop where
  holds : s.fdList.Holds s.arrays s.table
  live : ∀ {i fd}, s.Bound i fd → ∃ d, s.descs fd = some d
  distinct : ∀ {i j fd}, s.Bound i fd → s.Bound j fd → i = j

variable {s s' : FdState} {i j fd rdi rdx result rsi file : Nat} {mode : UInt16}
  {d : FileDescription} {entries : List (Option Nat)}

/-- A vector that holds such a table. -/
theorem WellFormed.of_holds (hholds : s.fdList.Holds s.arrays entries)
    (hlive : ∀ {i fd : Nat}, entries[i]? = some (some fd) → ∃ d, s.descs fd = some d)
    (hdistinct : ∀ {i j fd : Nat}, entries[i]? = some (some fd) →
      entries[j]? = some (some fd) → i = j) : s.WellFormed ∧ s.table = entries := by
  have htable : s.table = entries := hholds.elements
  refine ⟨⟨?_, ?_, ?_⟩, htable⟩
  · rw [htable]
    exact hholds
  · intro i fd hbound
    rw [Bound, htable] at hbound
    exact hlive hbound
  · intro i j fd hi hj
    rw [Bound, htable] at hi hj
    exact hdistinct hi hj

theorem wellFormed_new (arrays : Arrays (Option Nat))
    (descs : Nat → Option FileDescription) : (new arrays descs).WellFormed :=
  (WellFormed.of_holds (ToysVector.holds_new arrays) (fun h => by cases h)
    (fun h => by cases h)).1

@[simp] theorem setDesc_descs_self (s : FdState) (fd : Nat) (d : Option FileDescription) :
    (s.setDesc fd d).descs fd = d := by simp [FdState.setDesc]

theorem setDesc_descs_of_ne {a : Nat} (s : FdState) (ha : a ≠ fd)
    (d : Option FileDescription) : (s.setDesc fd d).descs a = s.descs a := by
  simp [FdState.setDesc, ha]

namespace WellFormed

/-- A new description is bound nowhere. -/
theorem not_bound_of_fresh (h : s.WellFormed) (hfresh : s.descs fd = none) :
    ¬s.Bound i fd := by
  intro hbound
  obtain ⟨d, hd⟩ := h.live hbound
  rw [hfresh] at hd
  cases hd

theorem desc_of_bound (h : s.WellFormed) (hbound : s.Bound i fd) :
    ∃ d, s.descs fd = some d ∧ s.desc fd = .ok d := by
  obtain ⟨d, hd⟩ := h.live hbound
  refine ⟨d, hd, ?_⟩
  rw [desc, hd]

/-- A table in which one entry changed, to null or to a description that was bound
nowhere. -/
theorem rebind (h : s.WellFormed) {k : Nat} {new : Option Nat}
    (hholds : s'.fdList.Holds s'.arrays entries)
    (hentry : ∀ {i fd : Nat}, entries[i]? = some (some fd) →
      s.Bound i fd ∨ (i = k ∧ new = some fd))
    (hlive : ∀ {i fd : Nat}, entries[i]? = some (some fd) → ∃ d, s'.descs fd = some d)
    (hnew : ∀ {i fd : Nat}, new = some fd → ¬s.Bound i fd) :
    s'.WellFormed ∧ s'.table = entries := by
  refine WellFormed.of_holds hholds hlive fun {i j fd} hi hj => ?_
  rcases hentry hi with hi | ⟨hi, hfd⟩
  · rcases hentry hj with hj | ⟨_, hfd⟩
    · exact h.distinct hi hj
    · exact absurd hi (hnew hfd)
  · rcases hentry hj with hj | ⟨hj, _⟩
    · exact absurd hj (hnew hfd)
    · rw [hi, hj]

/-- `push_back` of null or of a description that was bound nowhere. -/
theorem push (h : s.WellFormed) (new : Option Nat)
    (hlive : ∀ fd, new = some fd → ∃ d, s.descs fd = some d)
    (hnew : ∀ {i fd : Nat}, new = some fd → ¬s.Bound i fd) :
    ∃ s', s.push new = .ok s' ∧ s'.WellFormed ∧ s'.table = s.table ++ [new] ∧
      s'.descs = s.descs := by
  obtain ⟨v, arrays, hpush, hholds⟩ := h.holds.pushBack new
  have hentry : ∀ {i fd : Nat}, (s.table ++ [new])[i]? = some (some fd) →
      s.Bound i fd ∨ (i = s.table.length ∧ new = some fd) := by
    intro i fd hi
    rcases Nat.lt_or_ge i s.table.length with hlt | hge
    · rw [List.getElem?_append_left hlt] at hi
      exact .inl hi
    · rw [List.getElem?_append_right hge, List.getElem?_singleton] at hi
      split at hi
      · exact .inr ⟨by omega, Option.some.inj hi⟩
      · cases hi
  have hformed : WellFormed ⟨v, arrays, s.descs⟩ ∧
      table ⟨v, arrays, s.descs⟩ = s.table ++ [new] := h.rebind hholds hentry
    (fun hi => by
      rcases hentry hi with hold | ⟨_, hfd⟩
      · exact h.live hold
      · exact hlive _ hfd) hnew
  refine ⟨_, ?_, hformed.1, hformed.2, rfl⟩
  rw [FdState.push, hpush]
  rfl

/-- Storing null or a description that was bound nowhere. -/
theorem put (h : s.WellFormed) {k : Nat} (hk : k < s.table.length) (new : Option Nat)
    (descs : Nat → Option FileDescription)
    (hlive : ∀ {i fd : Nat}, i ≠ k → s.Bound i fd → ∃ d, descs fd = some d)
    (hlive' : ∀ fd, new = some fd → ∃ d, descs fd = some d)
    (hnew : ∀ {i fd : Nat}, new = some fd → ¬s.Bound i fd) :
    ∃ arrays, s.fdList.put s.arrays k new = .ok arrays ∧
      WellFormed ⟨s.fdList, arrays, descs⟩ ∧
      table ⟨s.fdList, arrays, descs⟩ = s.table.set k new := by
  obtain ⟨arrays, hput, hholds⟩ := h.holds.put hk new
  have hentry : ∀ {i fd : Nat}, (s.table.set k new)[i]? = some (some fd) →
      (i ≠ k ∧ s.Bound i fd) ∨ (i = k ∧ new = some fd) := by
    intro i fd hi
    by_cases hik : k = i
    · rw [← hik, List.getElem?_set_self hk] at hi
      exact .inr ⟨hik.symm, Option.some.inj hi⟩
    · rw [List.getElem?_set_ne hik] at hi
      exact .inl ⟨fun heq => hik heq.symm, hi⟩
  have hformed : WellFormed ⟨s.fdList, arrays, descs⟩ ∧
      table ⟨s.fdList, arrays, descs⟩ = s.table.set k new := h.rebind hholds
    (fun hi => (hentry hi).imp And.right id)
    (fun hi => by
      rcases hentry hi with ⟨hne, hold⟩ | ⟨_, hfd⟩
      · exact hlive hne hold
      · exact hlive' _ hfd) hnew
  exact ⟨arrays, hput, hformed.1, hformed.2⟩

/-- A description made or changed. -/
theorem setDesc (h : s.WellFormed) (fd : Nat) (d : FileDescription) :
    (s.setDesc fd (some d)).WellFormed :=
  { holds := h.holds
    live := by
      intro i a hbound
      by_cases ha : a = fd
      · exact ⟨d, by rw [ha, setDesc_descs_self]⟩
      · obtain ⟨x, hx⟩ := h.live hbound
        exact ⟨x, by rw [setDesc_descs_of_ne s ha, hx]⟩
    distinct := h.distinct }

/-- A null entry more. -/
theorem push_null (h : s.WellFormed) : ∃ s', s.push none = .ok s' ∧ s'.WellFormed ∧
    s'.table = s.table ++ [none] ∧ s'.descs = s.descs :=
  h.push none (fun fd hfd => by cases hfd) (fun hfd => by cases hfd)

/-- An entry more, for a new description. -/
theorem push_new (h : s.WellFormed) (hfresh : s.descs fd = none) (d : FileDescription) :
    ∃ s', (s.setDesc fd (some d)).push (some fd) = .ok s' ∧ s'.WellFormed ∧
      s'.table = s.table ++ [some fd] ∧
      s'.descs = Function.update s.descs fd (some d) :=
  (h.setDesc fd d).push (some fd)
    (fun a ha => ⟨d, by rw [← Option.some.inj ha, setDesc_descs_self]⟩)
    (fun {i a} ha => by
      rw [← Option.some.inj ha]
      exact h.not_bound_of_fresh hfresh)

/-- Filling a list returns, and keeps what each of its `push_back`s keeps. -/
theorem fill_invariant {I : FdState → Prop}
    (hnull : ∀ {t t' : FdState}, t.WellFormed → I t → t.push none = .ok t' → I t')
    (hnew : ∀ {t t' : FdState} {fd : Nat} {d : FileDescription}, t.WellFormed →
      t.descs fd = none → I t → (t.setDesc fd (some d)).push (some fd) = .ok t' → I t')
    (h : s.WellFormed) (hs : I s) {fds : List (Option (Nat × FileDescription))}
    (hfresh : FreshAll s.descs fds) : ∃ s', s.fill fds = .ok s' ∧ s'.WellFormed ∧ I s' := by
  induction fds generalizing s with
  | nil => exact ⟨s, rfl, h, hs⟩
  | cons new fds ih =>
      cases new with
      | none =>
          obtain ⟨s₁, hpush, hformed, _, hdescs⟩ := h.push_null
          rw [← hdescs] at hfresh
          obtain ⟨s', hfill, hs'⟩ := ih hformed (hnull h hs hpush) hfresh
          exact ⟨s', by rw [FdState.fill, hpush, ok_bind, hfill], hs'⟩
      | some new =>
          obtain ⟨fd, d⟩ := new
          obtain ⟨hfree, hrest⟩ := hfresh
          obtain ⟨s₁, hpush, hformed, _, hdescs⟩ := h.push_new hfree d
          rw [← hdescs] at hrest
          obtain ⟨s', hfill, hs'⟩ := ih hformed (hnew h hfree hs hpush) hrest
          exact ⟨s', by rw [FdState.fill, hpush, ok_bind, hfill], hs'⟩

/-- The list that a new process gets. -/
theorem of_fill {arrays : Arrays (Option Nat)} {descs : Nat → Option FileDescription}
    {fds : List (Option (Nat × FileDescription))} (hfresh : FreshAll descs fds)
    (hfill : (new arrays descs).fill fds = .ok s) : s.WellFormed := by
  obtain ⟨s', hfill', hformed, _⟩ := fill_invariant (I := fun _ => True)
    (fun _ _ _ => trivial) (fun _ _ _ _ => trivial) (wellFormed_new arrays descs) trivial hfresh
  rw [hfill] at hfill'
  cases hfill'
  exact hformed

/-! ### The calls -/

theorem get_entry (h : s.WellFormed) (hi : i < s.table.length) :
    s.fdList.get s.arrays i = .ok s.table[i] := h.holds.get hi

/-- The loop of `syscall_open` stops at the first null entry. -/
theorem firstNull_cases (h : s.WellFormed) (n : Nat) (hn : i + n = s.table.length) :
    (∃ k, s.firstNull n i = .ok (some k) ∧ i ≤ k ∧ s.table[k]? = some none ∧
      ∀ j, i ≤ j → j < k → s.table[j]? ≠ some none) ∨
    (s.firstNull n i = .ok none ∧ ∀ j, i ≤ j → s.table[j]? ≠ some none) := by
  induction n generalizing i with
  | zero =>
      refine .inr ⟨rfl, fun j hj => ?_⟩
      rw [List.getElem?_eq_none (by omega)]
      simp
  | succ n ih =>
      have hi : i < s.table.length := by omega
      have hentry := List.getElem?_eq_getElem hi
      rw [firstNull, h.get_entry hi, ok_bind]
      cases hfd : s.table[i] with
      | none =>
          rw [hfd] at hentry
          exact .inl ⟨i, rfl, le_refl i, hentry, fun j hij hji => by omega⟩
      | some fd =>
          rw [hfd] at hentry
          have hskip : s.table[i]? ≠ some none := by
            rw [hentry]
            simp
          rcases ih (by omega : i + 1 + n = s.table.length) with
            ⟨k, hret, hik, hk, hmin⟩ | ⟨hret, hnone⟩
          · refine .inl ⟨k, hret, by omega, hk, fun j hij hjk => ?_⟩
            rcases Nat.eq_or_lt_of_le hij with rfl | hlt
            · exact hskip
            · exact hmin j (by omega) hjk
          · refine .inr ⟨hret, fun j hij => ?_⟩
            rcases Nat.eq_or_lt_of_le hij with rfl | hlt
            · exact hskip
            · exact hnone j (by omega)

end WellFormed

/-- The lowest null entry, or the length of the table when there is none. -/
def FirstFree (entries : List (Option Nat)) (i : Nat) : Prop :=
  IsLeast {k | entries[k]? = some none ∨ k = entries.length} i

/-- A description that is bound nowhere goes to the first free entry. -/
theorem WellFormed.bindFirst (h : s.WellFormed) (hlive : ∃ d, s.descs fd = some d)
    (hnot : ∀ i, ¬s.Bound i fd) :
    ∃ k s', s.bindFirst fd = .ok (k, s') ∧ FirstFree s.table k ∧ s'.WellFormed ∧
      s'.Bound k fd ∧ s'.descs = s.descs ∧
      ∀ i ≠ k, s'.table[i]? = s.table[i]? := by
  have hself : ∀ a, some fd = some a → ∃ d, s.descs a = some d := by
    intro a ha
    rw [← Option.some.inj ha]
    exact hlive
  have hnew : ∀ {i a : Nat}, some fd = some a → ¬s.Bound i a := by
    intro i a ha
    rw [← Option.some.inj ha]
    exact hnot i
  rw [FdState.bindFirst, h.holds.size_eq]
  rcases h.firstNull_cases (i := 0) s.table.length (Nat.zero_add _) with
    ⟨k, hret, _, hk, hmin⟩ | ⟨hret, hnone⟩
  · have hklt : k < s.table.length := by
      by_contra hge
      rw [List.getElem?_eq_none (by omega)] at hk
      cases hk
    obtain ⟨arrays, hput, hformed, htable⟩ := h.put hklt (some fd) s.descs
      (fun _ hbound => h.live hbound) hself hnew
    refine ⟨k, ⟨s.fdList, arrays, s.descs⟩, ?_, ⟨.inl hk, fun j hj => ?_⟩, hformed, ?_,
      rfl, ?_⟩
    · rw [hret, ok_bind]
      dsimp only
      rw [hput]
      rfl
    · by_contra hlt
      rcases hj with hj | hj
      · exact hmin j (Nat.zero_le j) (by omega) hj
      · omega
    · rw [Bound, htable, List.getElem?_set_self hklt]
    · intro i hi
      rw [htable, List.getElem?_set_ne (Ne.symm hi)]
  · obtain ⟨s', hpush, hformed, htable, hdescs⟩ := h.push (some fd) hself hnew
    refine ⟨s.table.length, s', ?_, ⟨.inr rfl, fun j hj => ?_⟩, hformed, ?_, hdescs, ?_⟩
    · rw [hret, ok_bind]
      dsimp only
      rw [hpush, ok_bind, hformed.holds.size_eq, htable, List.length_append,
        List.length_singleton, Nat.add_sub_cancel]
      rfl
    · rcases hj with hj | hj
      · exact absurd hj (hnone j (Nat.zero_le j))
      · exact hj.ge
    · rw [Bound, htable, List.getElem?_concat_length]
    · intro i hi
      rw [htable]
      rcases Nat.lt_or_ge i s.table.length with hlt | hge
      · rw [List.getElem?_append_left hlt]
      · rw [List.getElem?_eq_none hge, List.getElem?_eq_none]
        rw [List.length_append, List.length_singleton]
        omega

/-- `syscall_open` binds the first free entry to the new description. -/
theorem WellFormed.syscallOpen (h : s.WellFormed) (rsi file : Nat)
    (hfresh : s.descs fd = none) :
    ∃ k s', s.syscallOpen rsi (some (fd, file)) = .ok (k, s') ∧ FirstFree s.table k ∧
      s'.WellFormed ∧ s'.Bound k fd ∧
      s'.descs = Function.update s.descs fd (some ⟨file, UInt16.ofNat rsi, 0⟩) ∧
      ∀ i ≠ k, s'.table[i]? = s.table[i]? :=
  (h.setDesc fd ⟨file, UInt16.ofNat rsi, 0⟩).bindFirst
    ⟨_, setDesc_descs_self s fd _⟩ fun _ => h.not_bound_of_fresh hfresh

/-- An index is behind the table, or its entry is null or a description. -/
theorem WellFormed.entry_cases (h : s.WellFormed) (rdi : Nat) :
    (rdi ≥ s.fdList.size ∧ ∀ fd, ¬s.Bound rdi fd) ∨
    (¬rdi ≥ s.fdList.size ∧
      ((s.fdList.get s.arrays rdi = .ok none ∧ ∀ fd, ¬s.Bound rdi fd) ∨
        ∃ fd, s.fdList.get s.arrays rdi = .ok (some fd) ∧ s.Bound rdi fd)) := by
  rw [h.holds.size_eq]
  rcases Nat.lt_or_ge rdi s.table.length with hlt | hge
  · refine .inr ⟨by omega, ?_⟩
    have hentry := List.getElem?_eq_getElem hlt
    rw [h.get_entry hlt]
    cases hfd : s.table[rdi] with
    | none =>
        refine .inl ⟨rfl, fun fd hbound => ?_⟩
        rw [Bound, hentry, hfd] at hbound
        cases hbound
    | some fd =>
        refine .inr ⟨fd, rfl, ?_⟩
        rw [Bound, hentry, hfd]
  · refine .inl ⟨hge, fun fd hbound => ?_⟩
    rw [Bound, List.getElem?_eq_none hge] at hbound
    cases hbound

/-- A description but for its offset. -/
def identity (s : FdState) (fd : Nat) : Option (Nat × UInt16) :=
  (s.descs fd).map fun d => (d.file, d.mode)

/-- `syscall_read` and `syscall_write` of an index: -1 where it names no description, or one
without the mode; else the answer of `Vfs`, and the offset moves whatever that is. -/
theorem WellFormed.transfer_cases (h : s.WellFormed) (mode : UInt16) (rdi rdx result : Nat) :
    (s.transfer mode rdi rdx result = .ok (minusOne, s) ∧
      ∀ fd d, s.Bound rdi fd → s.descs fd = some d → d.mode &&& mode = 0) ∨
    ∃ fd d, s.Bound rdi fd ∧ s.descs fd = some d ∧ d.mode &&& mode ≠ 0 ∧
      s.transfer mode rdi rdx result =
        .ok (result, s.setDesc fd (some { d with offset := (d.offset + rdx) % 2 ^ 64 })) := by
  rw [FdState.transfer]
  rcases h.entry_cases rdi with ⟨hge, hnot⟩ | ⟨hlt, ⟨hget, hnot⟩ | ⟨fd, hget, hbound⟩⟩
  · rw [if_pos hge]
    exact .inl ⟨rfl, fun fd _ hbound => absurd hbound (hnot fd)⟩
  · rw [if_neg hlt, hget, ok_bind]
    exact .inl ⟨rfl, fun fd _ hbound => absurd hbound (hnot fd)⟩
  · obtain ⟨d, hd, hdesc⟩ := h.desc_of_bound hbound
    rw [if_neg hlt, hget, ok_bind]
    dsimp only
    rw [hdesc, ok_bind]
    by_cases hmode : d.mode &&& mode = 0
    · rw [if_pos hmode]
      refine .inl ⟨rfl, ?_⟩
      intro fd' d' hbound' hd'
      have hsame : some (some fd) = some (some fd') := hbound.symm.trans hbound'
      cases hsame
      rw [hd] at hd'
      cases hd'
      exact hmode
    · rw [if_neg hmode]
      exact .inr ⟨fd, d, hbound, hd, hmode, rfl⟩

/-- They keep the table and the descriptions but for the offset. -/
theorem WellFormed.transfer (h : s.WellFormed) (mode : UInt16) (rdi rdx result : Nat) :
    ∃ rax s', s.transfer mode rdi rdx result = .ok (rax, s') ∧ s'.WellFormed ∧
      s'.table = s.table ∧ (∀ fd, s'.identity fd = s.identity fd) ∧
      ((∀ fd, ¬s.Bound rdi fd) → s' = s) := by
  rcases h.transfer_cases mode rdi rdx result with
    ⟨hret, _⟩ | ⟨fd, d, hbound, hd, _, hret⟩
  · exact ⟨_, s, hret, h, rfl, fun _ => rfl, fun _ => rfl⟩
  · refine ⟨_, _, hret, h.setDesc fd _, rfl, fun a => ?_, fun hnot => ?_⟩
    · by_cases ha : a = fd
      · rw [identity, identity, ha, setDesc_descs_self, hd]
        rfl
      · rw [identity, identity, setDesc_descs_of_ne s ha]
    · exact absurd hbound (hnot fd)

/-- `syscall_close` does nothing, or deletes the description and clears the entry. -/
theorem WellFormed.syscallClose_cases (h : s.WellFormed) (rdi : Nat) :
    (∃ rax, s.syscallClose rdi = .ok (rax, s) ∧ ∀ fd, ¬s.Bound rdi fd) ∨
    ∃ fd s', s.Bound rdi fd ∧ s.syscallClose rdi = .ok (0, s') ∧ s'.WellFormed ∧
      s'.table = s.table.set rdi none ∧ s'.descs = Function.update s.descs fd none := by
  rw [FdState.syscallClose]
  rcases h.entry_cases rdi with ⟨hge, hnot⟩ | ⟨hlt, ⟨hget, hnot⟩ | ⟨fd, hget, hbound⟩⟩
  · rw [if_pos hge]
    exact .inl ⟨_, rfl, hnot⟩
  · rw [if_neg hlt, hget, ok_bind]
    exact .inl ⟨_, rfl, hnot⟩
  · obtain ⟨d, hd, hdesc⟩ := h.desc_of_bound hbound
    have hrdi : rdi < s.table.length := by
      rw [h.holds.size_eq] at hlt
      omega
    -- every other bound description is another one
    have hother : ∀ {i a : Nat}, i ≠ rdi → s.Bound i a → a ≠ fd := by
      rintro i a hi ha rfl
      exact hi (h.distinct ha hbound)
    obtain ⟨arrays, hput, hformed, htable⟩ := h.put hrdi none (s.setDesc fd none).descs
      (fun {i a} hi ha => by
        rw [setDesc_descs_of_ne s (hother hi ha)]
        exact h.live ha)
      (fun _ ha => by cases ha) (fun ha => by cases ha)
    rw [if_neg hlt, hget, ok_bind]
    dsimp only
    rw [hdesc, ok_bind, hput]
    exact .inr ⟨fd, ⟨s.fdList, arrays, (s.setDesc fd none).descs⟩, hbound, rfl, hformed,
      htable, rfl⟩

/-- The other descriptors stay. -/
theorem WellFormed.syscallClose (h : s.WellFormed) (rdi : Nat) :
    ∃ rax s', s.syscallClose rdi = .ok (rax, s') ∧ s'.WellFormed ∧
      (∀ i ≠ rdi, s'.table[i]? = s.table[i]?) ∧
      (∀ i ≠ rdi, ∀ fd, s.Bound i fd → s'.descs fd = s.descs fd) ∧
      ((∀ fd, ¬s.Bound rdi fd) → s' = s) := by
  rcases h.syscallClose_cases rdi with
    ⟨rax, hret, _⟩ | ⟨fd, s', hbound, hret, hformed, htable, hdescs⟩
  · exact ⟨rax, s, hret, h, fun _ _ => rfl, fun _ _ _ _ => rfl, fun _ => rfl⟩
  · refine ⟨0, s', hret, hformed, ?_, ?_, fun hnot => absurd hbound (hnot fd)⟩
    · intro i hi
      rw [htable, List.getElem?_set_ne (Ne.symm hi)]
    · intro i hi a ha
      have hne : a ≠ fd := by
        rintro rfl
        exact hi (h.distinct ha hbound)
      rw [hdescs, Function.update_of_ne hne]

end FdState

/-! ## The system -/

/-- The calls, with what `Vfs` answers. -/
inductive FdCall
  | syscallOpen (rsi : Nat) (opened : Option (Nat × Nat))
  | syscallRead (rdi rdx result : Nat)
  | syscallWrite (rdi rdx result : Nat)
  | syscallClose (rdi : Nat)
deriving DecidableEq

/-- The index a call is made on. -/
def FdCall.index : FdCall → Option Nat
  | .syscallOpen .. => none
  | .syscallRead rdi .. => some rdi
  | .syscallWrite rdi .. => some rdi
  | .syscallClose rdi => some rdi

/-- A description that `Vfs::open` made is new. -/
def FdCall.Allowed (s : FdState) : FdCall → Prop
  | .syscallOpen _ (some (fd, _)) => s.descs fd = none
  | _ => True

def FdState.exec (s : FdState) : FdCall → Except Fault (Nat × FdState)
  | .syscallOpen rsi opened => s.syscallOpen rsi opened
  | .syscallRead rdi rdx result => s.syscallRead rdi rdx result
  | .syscallWrite rdi rdx result => s.syscallWrite rdi rdx result
  | .syscallClose rdi => s.syscallClose rdi

def FdStep (s : FdState) (e : FdCall) (s' : FdState) : Prop :=
  e.Allowed s ∧ ∃ rax, s.exec e = .ok (rax, s')

section System

variable {s s' : FdState} {e : FdCall} {es : List FdCall} {rax : Nat}

/-- What a call keeps: the form of the list, and every binding that it does not
close. -/
structure KeepsBindings (s : FdState) (e : FdCall) (s' : FdState) : Prop where
  formed : s'.WellFormed
  bound : ∀ {i fd : Nat}, s.Bound i fd → e ≠ .syscallClose i →
    s'.Bound i fd ∧ s'.identity fd = s.identity fd

theorem FdState.WellFormed.keeps_open (h : s.WellFormed) {rsi fd file : Nat}
    (hfresh : s.descs fd = none)
    (hret : s.syscallOpen rsi (some (fd, file)) = .ok (rax, s')) :
    KeepsBindings s (.syscallOpen rsi (some (fd, file))) s' ∧
      FdState.FirstFree s.table rax ∧
      s'.Bound rax fd ∧ s'.descs fd = some ⟨file, UInt16.ofNat rsi, 0⟩ := by
  obtain ⟨k, s₁, hret₁, hfirst, hformed, hbound, hdescs, hother⟩ :=
    h.syscallOpen rsi file hfresh
  rw [hret₁] at hret
  cases hret
  refine ⟨⟨hformed, fun {i a} hi _ => ?_⟩, hfirst, hbound, ?_⟩
  · have hik : i ≠ rax := by
      rintro rfl
      rcases hfirst.1 with hnull | hlen
      · rw [FdState.Bound, hnull] at hi
        cases hi
      · rw [FdState.Bound, List.getElem?_eq_none (by omega)] at hi
        cases hi
    have ha : a ≠ fd := by
      rintro rfl
      exact h.not_bound_of_fresh hfresh hi
    constructor
    · rw [FdState.Bound, hother i hik]
      exact hi
    · rw [FdState.identity, FdState.identity, hdescs, Function.update_of_ne ha]
  · rw [hdescs, Function.update_self]

theorem FdState.WellFormed.keeps_transfer (h : s.WellFormed) {mode : UInt16}
    {rdi rdx result : Nat} (hret : s.transfer mode rdi rdx result = .ok (rax, s')) :
    KeepsBindings s e s' ∧ ((∀ fd, ¬s.Bound rdi fd) → s' = s) := by
  obtain ⟨_, s₁, hret₁, hformed, htable, hidentity, hsame⟩ := h.transfer mode rdi rdx result
  rw [hret₁] at hret
  cases hret
  refine ⟨⟨hformed, fun {i fd} hi _ => ⟨?_, hidentity fd⟩⟩, hsame⟩
  rw [FdState.Bound, htable]
  exact hi

theorem FdState.WellFormed.keeps_close (h : s.WellFormed) {rdi : Nat}
    (hret : s.syscallClose rdi = .ok (rax, s')) :
    KeepsBindings s (.syscallClose rdi) s' ∧ ((∀ fd, ¬s.Bound rdi fd) → s' = s) := by
  obtain ⟨_, s₁, hret₁, hformed, htable, hdescs, hsame⟩ := h.syscallClose rdi
  rw [hret₁] at hret
  cases hret
  refine ⟨⟨hformed, fun {i fd} hi hne => ?_⟩, hsame⟩
  have hir : i ≠ rdi := fun heq => hne (by rw [heq])
  constructor
  · rw [FdState.Bound, htable i hir]
    exact hi
  · rw [FdState.identity, FdState.identity, hdescs i hir fd hi]

/-- One call. -/
theorem FdState.WellFormed.step (h : s.WellFormed) (hstep : FdStep s e s') :
    KeepsBindings s e s' := by
  obtain ⟨hok, rax, hret⟩ := hstep
  cases e with
  | syscallOpen rsi opened =>
      cases opened with
      | none =>
          cases hret
          exact ⟨h, fun hi _ => ⟨hi, rfl⟩⟩
      | some new =>
          obtain ⟨fd, file⟩ := new
          exact (h.keeps_open hok hret).1
  | syscallRead rdi rdx result => exact (h.keeps_transfer hret).1
  | syscallWrite rdi rdx result => exact (h.keeps_transfer hret).1
  | syscallClose rdi => exact (h.keeps_close hret).1

/-- A run of calls. -/
theorem FdState.WellFormed.run (h : s.WellFormed) (hrun : Run FdStep s es s') :
    s'.WellFormed ∧ ∀ {i fd : Nat}, s.Bound i fd → FdCall.syscallClose i ∉ es →
      s'.Bound i fd ∧ s'.identity fd = s.identity fd := by
  induction hrun with
  | nil s => exact ⟨h, fun hi _ => ⟨hi, rfl⟩⟩
  | cons hstep _ ih =>
      have hkeep := h.step hstep
      have hrest := ih hkeep.formed
      refine ⟨hrest.1, fun {i fd} hi hnot => ?_⟩
      rw [List.mem_cons, not_or] at hnot
      have hone := hkeep.bound hi (Ne.symm hnot.1)
      have hmany := hrest.2 hone.1 hnot.2
      exact ⟨hmany.1, hmany.2.trans hone.2⟩

/-- The discipline of a descriptor table. -/
structure Disciplined (s : FdState) : Prop where
  /-- every call returns -/
  returns : ∀ e : FdCall, e.Allowed s → ∃ rax s', s.exec e = .ok (rax, s')
  /-- an open binds the first free entry to the new description -/
  opens : ∀ {rsi fd file rax s'}, s.descs fd = none →
    s.exec (.syscallOpen rsi (some (fd, file))) = .ok (rax, s') →
    FdState.FirstFree s.table rax ∧ s'.Bound rax fd ∧
      s'.descs fd = some ⟨file, UInt16.ofNat rsi, 0⟩
  /-- a descriptor names the same description until it is closed -/
  stable : ∀ {es s' i fd}, Run FdStep s es s' → s.Bound i fd →
    FdCall.syscallClose i ∉ es → s'.Bound i fd ∧ s'.identity fd = s.identity fd
  /-- no two descriptors name one description -/
  distinct : ∀ {i j fd}, s.Bound i fd → s.Bound j fd → i = j
  /-- calls on an index that names none change nothing, and neither do failed opens -/
  untouched : ∀ {e i rax s'}, e.index = some i → (∀ fd, ¬s.Bound i fd) →
    s.exec e = .ok (rax, s') → s' = s
  failed : ∀ rsi, s.exec (.syscallOpen rsi none) = .ok (minusOne, s)

theorem FdState.WellFormed.disciplined (h : s.WellFormed) : Disciplined s := by
  refine
    { returns := ?_
      opens := fun hfresh hret => (h.keeps_open hfresh hret).2
      stable := fun hrun => (h.run hrun).2
      distinct := h.distinct
      untouched := ?_
      failed := fun _ => rfl }
  · intro e hok
    cases e with
    | syscallOpen rsi opened =>
        cases opened with
        | none => exact ⟨_, _, rfl⟩
        | some new =>
            obtain ⟨fd, file⟩ := new
            obtain ⟨k, s', hret, _⟩ := h.syscallOpen rsi file hok
            exact ⟨k, s', hret⟩
    | syscallRead rdi rdx result =>
        obtain ⟨rax, s', hret, _⟩ := h.transfer READ rdi rdx result
        exact ⟨rax, s', hret⟩
    | syscallWrite rdi rdx result =>
        obtain ⟨rax, s', hret, _⟩ := h.transfer WRITE rdi rdx result
        exact ⟨rax, s', hret⟩
    | syscallClose rdi =>
        obtain ⟨rax, s', hret, _⟩ := h.syscallClose rdi
        exact ⟨rax, s', hret⟩
  · intro e i rax s' hindex hnot hret
    cases e with
    | syscallOpen rsi opened => cases hindex
    | syscallRead rdi rdx result =>
        obtain rfl := Option.some.inj hindex
        exact (h.keeps_transfer (e := .syscallRead rdi rdx result) hret).2 hnot
    | syscallWrite rdi rdx result =>
        obtain rfl := Option.some.inj hindex
        exact (h.keeps_transfer (e := .syscallWrite rdi rdx result) hret).2 hnot
    | syscallClose rdi =>
        obtain rfl := Option.some.inj hindex
        exact (h.keeps_close hret).2 hnot

/-- The list of every process, filled by its creator, is disciplined after any sequence of
the four calls. -/
theorem descriptor_discipline {arrays : Arrays (Option Nat)}
    {descs : Nat → Option FileDescription} {fds : List (Option (Nat × FileDescription))}
    {s₀ : FdState} (hfresh : FdState.FreshAll descs fds)
    (hstart : (FdState.new arrays descs).fill fds = .ok s₀) (hrun : Run FdStep s₀ es s) :
    Disciplined s :=
  ((FdState.WellFormed.of_fill hfresh hstart).run hrun).1.disciplined

end System

/-- A process with three descriptors closes the middle one and opens another. -/
theorem descriptor_discipline_reopen :
    ∃ s, s.table = [some 1, some 4, some 3] ∧ Disciplined s := by
  have hend : ∃ s₀ s₁ s₂,
      (FdState.new [] fun _ => none).fill [some (1, ⟨7, WRITE, 0⟩),
        some (2, ⟨7, READ, 0⟩), some (3, ⟨7, WRITE, 0⟩)] = .ok s₀ ∧
      s₀.exec (.syscallClose 1) = .ok (0, s₁) ∧
      s₁.descs 4 = none ∧
      s₁.exec (.syscallOpen 4 (some (4, 8))) = .ok (1, s₂) ∧
      s₂.table = [some 1, some 4, some 3] :=
    ⟨_, _, _, rfl, rfl, rfl, rfl, by decide⟩
  obtain ⟨s₀, s₁, s₂, hfill, hclose, hfresh, hopen, htable⟩ := hend
  have hstep₁ : FdStep s₀ (.syscallClose 1) s₁ := ⟨trivial, 0, hclose⟩
  have hstep₂ : FdStep s₁ (.syscallOpen 4 (some (4, 8))) s₂ := ⟨hfresh, 1, hopen⟩
  refine ⟨s₂, htable, descriptor_discipline ?_ hfill (.cons hstep₁ (.cons hstep₂ (.nil s₂)))⟩
  simp [FdState.FreshAll]

end Toystar.Fs
