import Toystar.Fs.Files

/-!
# Descriptor tables of several processes

The lists of all processes share the heap: their arrays and their descriptions.  They are
kept apart by `create_process`, `syscall_fork` and the calls on descriptors, in whatever
order these come (`FdSystem.separate_run`).

`syscall_fork` copies the list of the parent with one new description for each entry, and
copies into it from whatever the entry points to.  For an entry that `syscall_close` left
null that is the address 0, so the copy is faithful exactly while there is none
(`fork_copies_iff`).
-/

namespace Toystar.Fs

open Toystar.Kernel
open Toystar.Klibc
open Toystar.Klibc.ToysVector (Apart Frame)
open Toystar.Verified

/-! ## What a call leaves alone -/

/-- A call on one list leaves the arrays of other vectors and the descriptions that are
bound elsewhere, and binds only what was bound there before or did not exist. -/
structure CallFrame (s s' : FdState) : Prop where
  vectors : Frame s.fdList s.arrays s'.fdList s'.arrays
  descs : ∀ {a}, s.descs a ≠ none → (∀ i, ¬s.Bound i a) → s'.descs a = s.descs a
  bound : ∀ {i a}, s'.Bound i a → (∃ j, s.Bound j a) ∨ s.descs a = none

namespace FdState

variable {s s' : FdState} {e : FdCall} {fd k rax : Nat} {x : Option Nat}

theorem frame_push (hret : s.push x = .ok s') :
    Frame s.fdList s.arrays s'.fdList s'.arrays := by
  rw [push, bind_eq_ok] at hret
  obtain ⟨⟨v, h⟩, hpush, hret⟩ := hret
  cases hret
  exact Frame.pushBack hpush

theorem frame_bindFirst (hret : s.bindFirst fd = .ok (k, s')) :
    Frame s.fdList s.arrays s'.fdList s'.arrays := by
  rw [bindFirst, bind_eq_ok] at hret
  obtain ⟨free, _, hret⟩ := hret
  cases free with
  | none =>
      simp only [bind_eq_ok] at hret
      obtain ⟨s₁, hpush, hret⟩ := hret
      cases hret
      exact frame_push hpush
  | some i =>
      simp only [bind_eq_ok] at hret
      obtain ⟨h, hput, hret⟩ := hret
      cases hret
      exact Frame.put hput

namespace WellFormed

theorem frame_refl (s : FdState) : CallFrame s s :=
  ⟨Frame.refl _ _, fun _ _ => rfl, fun hbound => .inl ⟨_, hbound⟩⟩

theorem frame_open (h : s.WellFormed) {rsi file : Nat} (hfresh : s.descs fd = none)
    (hret : s.syscallOpen rsi (some (fd, file)) = .ok (rax, s')) : CallFrame s s' := by
  obtain ⟨k, s₁, hret₁, _, _, hbound, hdescs, hother⟩ := h.syscallOpen rsi file hfresh
  rw [hret] at hret₁
  cases hret₁
  refine ⟨?_, ?_, ?_⟩
  · exact frame_bindFirst (s := s.setDesc fd (some ⟨file, UInt16.ofNat rsi, 0⟩)) hret
  · intro a hlive _
    have hne : a ≠ fd := by
      rintro rfl
      exact hlive hfresh
    rw [hdescs, Function.update_of_ne hne]
  · intro i a hi
    by_cases hik : i = rax
    · subst hik
      rw [Bound] at hi hbound
      rw [hbound] at hi
      cases hi
      exact .inr hfresh
    · rw [Bound, hother i hik] at hi
      exact .inl ⟨i, hi⟩

theorem frame_transfer (h : s.WellFormed) {mode : UInt16} {rdi rdx result : Nat}
    (hret : s.transfer mode rdi rdx result = .ok (rax, s')) : CallFrame s s' := by
  rcases h.transfer_cases mode rdi rdx result with
    ⟨hret', _⟩ | ⟨fd, d, hbound, _, _, hret'⟩
  · rw [hret] at hret'
    cases hret'
    exact frame_refl s
  · rw [hret] at hret'
    cases hret'
    refine ⟨Frame.refl _ _, ?_, fun hi => .inl ⟨_, hi⟩⟩
    intro a _ hnot
    have hne : a ≠ fd := by
      rintro rfl
      exact hnot rdi hbound
    exact setDesc_descs_of_ne s hne _

theorem frame_close (h : s.WellFormed) {rdi : Nat}
    (hret : s.syscallClose rdi = .ok (rax, s')) : CallFrame s s' := by
  rcases h.syscallClose_cases rdi with
    ⟨_, hret', _⟩ | ⟨fd, s₁, hbound, hret', _, htable, hdescs⟩
  · rw [hret] at hret'
    cases hret'
    exact frame_refl s
  · rw [hret] at hret'
    cases hret'
    refine ⟨?_, ?_, ?_⟩
    · rw [FdState.syscallClose] at hret
      split at hret
      · cases hret
      · rw [bind_eq_ok] at hret
        obtain ⟨entry, _, hret⟩ := hret
        cases entry with
        | none =>
            cases hret
            exact Frame.refl _ _
        | some a =>
            simp only [bind_eq_ok] at hret
            obtain ⟨_, _, arrays, hput, hret⟩ := hret
            cases hret
            exact Frame.put hput
    · intro a _ hnot
      have hne : a ≠ fd := by
        rintro rfl
        exact hnot rdi hbound
      rw [hdescs, Function.update_of_ne hne]
    · intro i a hi
      rw [Bound, htable, List.getElem?_set] at hi
      split at hi
      · split at hi <;> cases hi
      · exact .inl ⟨i, hi⟩

/-- Every call that is allowed. -/
theorem frame_exec (h : s.WellFormed) (hok : e.Allowed s) (hret : s.exec e = .ok (rax, s')) :
    s'.WellFormed ∧ CallFrame s s' := by
  refine ⟨(h.step ⟨hok, rax, hret⟩).formed, ?_⟩
  cases e with
  | syscallOpen rsi opened =>
      cases opened with
      | none =>
          cases hret
          exact frame_refl s
      | some new => exact h.frame_open hok hret
  | syscallRead rdi rdx result => exact h.frame_transfer hret
  | syscallWrite rdi rdx result => exact h.frame_transfer hret
  | syscallClose rdi => exact h.frame_close hret

/-- A null entry more. -/
theorem frame_push_null (h : s.WellFormed) (hpush : s.push none = .ok s') :
    CallFrame s s' := by
  obtain ⟨s₁, hpush₁, _, htable, hdescs⟩ := h.push_null
  rw [hpush] at hpush₁
  cases hpush₁
  refine ⟨frame_push hpush, fun _ _ => by rw [hdescs], ?_⟩
  intro i a hi
  rw [Bound, htable, List.getElem?_append] at hi
  split at hi
  · exact .inl ⟨i, hi⟩
  · rw [List.getElem?_singleton] at hi
    split at hi
    · cases hi
    · cases hi

/-- An entry more, for a new description. -/
theorem frame_push_new (h : s.WellFormed) {d : FileDescription} (hfresh : s.descs fd = none)
    (hpush : (s.setDesc fd (some d)).push (some fd) = .ok s') : CallFrame s s' := by
  obtain ⟨s₁, hpush₁, _, htable, hdescs⟩ := h.push_new hfresh d
  rw [hpush] at hpush₁
  cases hpush₁
  refine ⟨frame_push (s := s.setDesc fd (some d)) hpush, ?_, ?_⟩
  · intro a hlive _
    have hne : a ≠ fd := by
      rintro rfl
      exact hlive hfresh
    rw [hdescs, Function.update_of_ne hne]
  · intro i a hi
    rw [Bound, htable, List.getElem?_append] at hi
    split at hi
    · exact .inl ⟨i, hi⟩
    · rw [List.getElem?_singleton] at hi
      split at hi
      · cases hi
        exact .inr hfresh
      · cases hi

end WellFormed

theorem frame_trans {t : FdState} (h : CallFrame s s') (h' : CallFrame s' t) :
    CallFrame s t := by
  have hnot : ∀ {a}, s.descs a ≠ none → (∀ i, ¬s.Bound i a) → ∀ i, ¬s'.Bound i a := by
    intro a hlive hfree i hi
    rcases h.bound hi with ⟨j, hj⟩ | hnone
    · exact hfree j hj
    · exact hlive hnone
  refine ⟨h.vectors.trans h'.vectors, ?_, ?_⟩
  · intro a hlive hfree
    have hsame := h.descs hlive hfree
    rw [h'.descs (by rw [hsame]; exact hlive) (hnot hlive hfree), hsame]
  · intro i a hi
    rcases h'.bound hi with ⟨j, hj⟩ | hnone
    · exact h.bound hj
    · by_contra hneither
      obtain ⟨hfree, hlive⟩ := not_or.mp hneither
      rw [h.descs hlive fun i hi => hfree ⟨i, hi⟩] at hnone
      exact hlive hnone

/-- The list of a new process. -/
theorem WellFormed.frame_fill (h : s.WellFormed) {fds : List (Option (Nat × FileDescription))}
    (hfresh : FreshAll s.descs fds) : ∃ s', s.fill fds = .ok s' ∧ s'.WellFormed ∧
      CallFrame s s' :=
  fill_invariant (fun ht hframe hpush => frame_trans hframe (ht.frame_push_null hpush))
    (fun ht hfree hframe hpush => frame_trans hframe (ht.frame_push_new hfree hpush)) h
    (frame_refl s) hfresh

/-! ## The loop of `syscall_fork` -/

/-- What `memcpy` reads at an entry: a description, or what is at the address 0, where
nothing makes it fault. -/
def source (t : FdState) (atNull : Option FileDescription) :
    Option Nat → Except Fault FileDescription
  | some fd => t.desc fd
  | none =>
      match atNull with
      | some d => .ok d
      | none => .error .nullDeref

/-- The loop over `n` entries of the list `v` of the parent from index `i` on, into the list
of the child.  The description of round `i` is made at `news i`. -/
def forkLoop (v : ToysVector) (news : Nat → Nat) (atNull : Option FileDescription) :
    Nat → Nat → FdState → Except Fault FdState
  | 0, _, t => .ok t
  | n + 1, i, t => do
      let entry ← v.get t.arrays i
      let d ← t.source atNull entry
      forkLoop v news atNull n (i + 1)
        (← (t.setDesc (news i) (some d)).push (some (news i)))

/-- In front of round `i`: the list `v` holds the table of the parent, apart from the list of
the child, and the descriptions still to be made are new. -/
structure ForkReady (v : ToysVector) (table : List (Option Nat)) (news : Nat → Nat)
    (t : FdState) (i : Nat) : Prop where
  parent : v.Holds t.arrays table
  apart : Apart t.fdList v
  formed : t.WellFormed
  live : ∀ {j a : Nat}, table[j]? = some (some a) → t.descs a ≠ none
  fresh : ∀ j, i ≤ j → j < table.length → t.descs (news j) = none
  distinct : ∀ {j k}, j < table.length → k < table.length → news j = news k → j = k

namespace ForkReady

variable {v : ToysVector} {table : List (Option Nat)} {news : Nat → Nat} {t : FdState}
  {i : Nat} {atNull : Option FileDescription} {d : FileDescription}

/-- One round. -/
theorem round (h : ForkReady v table news t i) (hi : i < table.length) (d : FileDescription) :
    ∃ t', (t.setDesc (news i) (some d)).push (some (news i)) = .ok t' ∧
      ForkReady v table news t' (i + 1) ∧ t'.table = t.table ++ [some (news i)] ∧
      t'.descs = Function.update t.descs (news i) (some d) ∧ CallFrame t t' := by
  have hfresh := h.fresh i (le_refl i) hi
  obtain ⟨t', hpush, hformed, htable, hdescs⟩ := h.formed.push_new hfresh d
  have hframe := h.formed.frame_push_new hfresh hpush
  obtain ⟨hholds, hapart⟩ := hframe.vectors.holds h.parent h.apart
  refine ⟨t', hpush, ⟨hholds, hapart, hformed, ?_, ?_, h.distinct⟩, htable, hdescs, hframe⟩
  · intro j a hj
    rw [hdescs, Function.update_apply]
    split
    · simp
    · exact h.live hj
  · intro j hij hj
    have hne : news j ≠ news i := by
      intro heq
      have := h.distinct hj hi heq
      omega
    rw [hdescs, Function.update_of_ne hne]
    exact h.fresh j (by omega) hj

/-- All rounds, when each entry can be read: one new description for each, with the contents
of the one it stands for. -/
theorem loop (h : ForkReady v table news t i) (atNull : Option FileDescription) (n : Nat)
    (hn : i + n = table.length)
    (hread : atNull ≠ none ∨ ∀ j, i ≤ j → table[j]? ≠ some none) :
    ∃ t', forkLoop v news atNull n i t = .ok t' ∧ t'.WellFormed ∧ CallFrame t t' ∧
      t'.table = t.table ++ (List.range' i n).map (fun j => some (news j)) ∧
      (∀ a, (∀ j, i ≤ j → j < table.length → news j ≠ a) → t'.descs a = t.descs a) ∧
      ∀ j a, i ≤ j → table[j]? = some (some a) → t'.descs (news j) = t.descs a := by
  induction n generalizing t i with
  | zero =>
      refine ⟨t, rfl, h.formed, WellFormed.frame_refl t, by simp, fun _ _ => rfl, ?_⟩
      intro j a hij hj
      rw [List.getElem?_eq_none (by omega)] at hj
      cases hj
  | succ n ih =>
      have hi : i < table.length := by omega
      have hentry := List.getElem?_eq_getElem hi
      obtain ⟨d, hd, hcontents⟩ : ∃ d, t.source atNull table[i] = .ok d ∧
          ∀ a, table[i]? = some (some a) → t.descs a = some d := by
        cases hfd : table[i] with
        | none =>
            rw [hfd] at hentry
            rcases hread with hnull | hnone
            · obtain ⟨d, rfl⟩ := Option.ne_none_iff_exists'.mp hnull
              exact ⟨d, rfl, fun a ha => by rw [hentry] at ha; cases ha⟩
            · exact absurd hentry (hnone i (le_refl i))
        | some fd =>
            rw [hfd] at hentry
            obtain ⟨d, hd⟩ := Option.ne_none_iff_exists'.mp (h.live hentry)
            refine ⟨d, by rw [source, desc, hd], ?_⟩
            intro a ha
            rw [hentry] at ha
            cases ha
            exact hd
      obtain ⟨t₁, hpush, hready, htable, hdescs, hframe⟩ := h.round hi d
      obtain ⟨t', hloop, hformed, hframe', htable', hother, hcopied⟩ := ih hready (by omega)
        (hread.imp_right fun hnone j hij => hnone j (by omega))
      have hself : t₁.descs (news i) = some d := by
        rw [hdescs, Function.update_self]
      refine ⟨t', ?_, hformed, frame_trans hframe hframe', ?_, ?_, ?_⟩
      · rw [forkLoop, h.parent.get hi, ok_bind, hd, ok_bind, hpush, ok_bind, hloop]
      · rw [htable', htable, List.range'_succ, List.map_cons, List.append_assoc]
        rfl
      · intro a ha
        rw [hother a fun j hij hj => ha j (by omega) hj, hdescs,
          Function.update_of_ne (ha i (le_refl i) hi).symm]
      · intro j a hij hj
        rcases Nat.eq_or_lt_of_le hij with rfl | hlt
        · -- no later round makes a description at this address
          have hlater : ∀ k, i + 1 ≤ k → k < table.length → news k ≠ news i := by
            intro k hik hk heq
            have := h.distinct hk hi heq
            omega
          rw [hother _ hlater, hself, hcontents a hj]
        · have ha : a ≠ news i := by
            rintro rfl
            exact h.live hj (h.fresh i (le_refl i) hi)
          rw [hcopied j a hlt hj, hdescs, Function.update_of_ne ha]

/-- With nothing at the address 0 the loop does not get past a null entry. -/
theorem not_loop (h : ForkReady v table news t i) (n : Nat) (hn : i + n = table.length)
    {j : Nat} (hij : i ≤ j) (hnull : table[j]? = some none) (t' : FdState) :
    forkLoop v news none n i t ≠ .ok t' := by
  induction n generalizing t i with
  | zero =>
      rw [List.getElem?_eq_none (by omega)] at hnull
      cases hnull
  | succ n ih =>
      have hi : i < table.length := by omega
      have hentry := List.getElem?_eq_getElem hi
      rw [forkLoop, h.parent.get hi, ok_bind]
      intro hret
      rw [bind_eq_ok] at hret
      obtain ⟨d, hd, hret⟩ := hret
      obtain ⟨t₁, hpush, hready, _⟩ := h.round hi d
      rw [hpush, ok_bind] at hret
      rcases Nat.eq_or_lt_of_le hij with rfl | hlt
      · rw [hentry] at hnull
        rw [Option.some.inj hnull] at hd
        cases hd
      · exact ih hready (by omega) hlt hret

end ForkReady

end FdState

/-! ## The system -/

/-- The lists by process, none for what is no process, with the arrays and descriptions
that they share. -/
structure FdSystem where
  lists : Nat → Option ToysVector
  arrays : Arrays (Option Nat)
  descs : Nat → Option FileDescription

inductive FdEvent
  /-- `create_process` fills the list of process `p` -/
  | create (p : Nat) (fds : List (Option (Nat × FileDescription)))
  /-- process `p` makes a call -/
  | call (p : Nat) (e : FdCall)
  /-- process `p` forks `q` -/
  | fork (p q : Nat) (news : Nat → Nat) (atNull : Option FileDescription)

namespace FdSystem

/-- No process yet. -/
def boot (arrays : Arrays (Option Nat)) (descs : Nat → Option FileDescription) : FdSystem :=
  ⟨fun _ => none, arrays, descs⟩

/-- The list `v` by itself. -/
def view (s : FdSystem) (v : ToysVector) : FdState := ⟨v, s.arrays, s.descs⟩

/-- The list of `p` after a call. -/
def put (s : FdSystem) (p : Nat) (t : FdState) : FdSystem :=
  ⟨Function.update s.lists p (some t.fdList), t.arrays, t.descs⟩

/-- The part of `syscall_fork` about descriptors: the process with list `v` makes `q`. -/
def fork (s : FdSystem) (q : Nat) (v : ToysVector) (news : Nat → Nat)
    (atNull : Option FileDescription) : Except Fault FdSystem := do
  let t ← FdState.forkLoop v news atNull v.size 0 (s.view .new)
  return s.put q t

/-- `new` gives the descriptions of a fork addresses that are not in use. -/
structure NewAt (s : FdSystem) (v : ToysVector) (news : Nat → Nat) : Prop where
  fresh : ∀ j < v.size, s.descs (news j) = none
  distinct : ∀ {j k}, j < v.size → k < v.size → news j = news k → j = k

def Step (s : FdSystem) : FdEvent → FdSystem → Prop
  | .create p fds, s' => s.lists p = none ∧ FdState.FreshAll s.descs fds ∧
      ∃ t, (s.view .new).fill fds = .ok t ∧ s' = s.put p t
  | .call p e, s' => ∃ v rax t, s.lists p = some v ∧ e.Allowed (s.view v) ∧
      (s.view v).exec e = .ok (rax, t) ∧ s' = s.put p t
  | .fork p q news atNull, s' => ∃ v, s.lists p = some v ∧ s.lists q = none ∧
      s.NewAt v news ∧ s.fork q v news atNull = .ok s'

/-! ## The processes stay apart -/

/-- Every list is well formed, and no two share an array or a description. -/
structure Separate (s : FdSystem) : Prop where
  formed : ∀ {p v}, s.lists p = some v → (s.view v).WellFormed
  arrays : ∀ {p q v w}, p ≠ q → s.lists p = some v → s.lists q = some w → Apart v w
  descs : ∀ {p q v w i j a}, p ≠ q → s.lists p = some v → s.lists q = some w →
    (s.view v).Bound i a → ¬(s.view w).Bound j a

/-- The table of process `q` is as it was, and so are its descriptions with their offsets. -/
def Keeps (s s' : FdSystem) (q : Nat) : Prop :=
  ∀ v, s.lists q = some v → s'.lists q = some v ∧ (s'.view v).table = (s.view v).table ∧
    ∀ {i a}, (s.view v).Bound i a → s'.descs a = s.descs a

variable {s s' : FdSystem} {p q r : Nat} {u v w : ToysVector} {t : FdState}

/-- Another list, once the list `u` of `p` was worked on. -/
theorem Separate.view_put (h : s.Separate) (hq : s.lists q = some w)
    (harrays : Apart u w) (hdescs : ∀ {i j a}, (s.view u).Bound i a → ¬(s.view w).Bound j a)
    (hframe : CallFrame (s.view u) t) :
    ((s.put p t).view w).WellFormed ∧ ((s.put p t).view w).table = (s.view w).table ∧
      (∀ {i a}, (s.view w).Bound i a → t.descs a = s.descs a) ∧ Apart t.fdList w ∧
      ∀ {i j a}, t.Bound i a → ¬(s.view w).Bound j a := by
  have hformed := h.formed hq
  obtain ⟨hholds, hapart⟩ := hframe.vectors.holds hformed.holds harrays
  have hkeep : ∀ {i a}, (s.view w).Bound i a → t.descs a = s.descs a := by
    intro i a hi
    obtain ⟨d, hd⟩ := hformed.live hi
    have hlive : s.descs a ≠ none := by
      intro hnone
      rw [show (s.view w).descs a = s.descs a from rfl, hnone] at hd
      cases hd
    exact hframe.descs hlive fun j hj => hdescs hj hi
  obtain ⟨hformed', htable⟩ := FdState.WellFormed.of_holds (s := (s.put p t).view w) hholds
    (fun {i a} hi => by
      obtain ⟨d, hd⟩ := hformed.live hi
      exact ⟨d, (hkeep hi).trans hd⟩)
    fun hi hj => hformed.distinct hi hj
  refine ⟨hformed', htable, hkeep, hapart, ?_⟩
  intro i j a hi hj
  rcases hframe.bound hi with ⟨k, hk⟩ | hnone
  · exact hdescs hk hj
  · obtain ⟨d, hd⟩ := hformed.live hj
    rw [show (s.view w).descs a = (s.view u).descs a from rfl, hnone] at hd
    cases hd

/-- Work on the list `u` of one process, be it new or not, leaves the others alone. -/
theorem Separate.put (h : s.Separate)
    (harrays : ∀ {q w}, q ≠ p → s.lists q = some w → Apart u w)
    (hdescs : ∀ {q w i j a}, q ≠ p → s.lists q = some w → (s.view u).Bound i a →
      ¬(s.view w).Bound j a)
    (hformed : t.WellFormed) (hframe : CallFrame (s.view u) t) :
    (s.put p t).Separate ∧ ∀ q, q ≠ p → s.Keeps (s.put p t) q := by
  have hself : (s.put p t).lists p = some t.fdList := Function.update_self _ _ _
  have hother : ∀ {q}, q ≠ p → (s.put p t).lists q = s.lists q := fun hq =>
    Function.update_of_ne hq _ _
  have hview := fun {q w} (hne : q ≠ p) (hq : s.lists q = some w) =>
    h.view_put (p := p) hq (harrays hne hq) (hdescs hne hq) hframe
  have hbound : ∀ {q w i a}, q ≠ p → s.lists q = some w →
      ((s.put p t).view w).Bound i a → (s.view w).Bound i a := by
    intro q w i a hne hq hi
    rw [FdState.Bound, (hview hne hq).2.1] at hi
    exact hi
  constructor
  · constructor
    · intro q w hq
      by_cases hne : q = p
      · subst hne
        rw [hself] at hq
        cases hq
        exact hformed
      · rw [hother hne] at hq
        exact (hview hne hq).1
    · intro q r v w hqr hq hr
      by_cases hqp : q = p
      · subst hqp
        rw [hself] at hq
        cases hq
        rw [hother (Ne.symm hqr)] at hr
        exact (hview (Ne.symm hqr) hr).2.2.2.1
      · rw [hother hqp] at hq
        by_cases hrp : r = p
        · subst hrp
          rw [hself] at hr
          cases hr
          exact (hview hqp hq).2.2.2.1.symm
        · rw [hother hrp] at hr
          exact h.arrays hqr hq hr
    · intro q r v w i j a hqr hq hr hi hj
      by_cases hqp : q = p
      · subst hqp
        rw [hself] at hq
        cases hq
        rw [hother (Ne.symm hqr)] at hr
        exact (hview (Ne.symm hqr) hr).2.2.2.2 hi (hbound (Ne.symm hqr) hr hj)
      · rw [hother hqp] at hq
        by_cases hrp : r = p
        · subst hrp
          rw [hself] at hr
          cases hr
          exact (hview hqp hq).2.2.2.2 hj (hbound hqp hq hi)
        · rw [hother hrp] at hr
          exact h.descs hqr hq hr (hbound hqp hq hi) (hbound hrp hr hj)
  · intro q hne w hq
    have hkept := hview hne hq
    exact ⟨(hother hne).trans hq, hkept.2.1, hkept.2.2.1⟩

/-- A list that is still empty shares nothing. -/
theorem Separate.put_new (h : s.Separate) (hformed : t.WellFormed)
    (hframe : CallFrame (s.view .new) t) :
    (s.put p t).Separate ∧ ∀ q, q ≠ p → s.Keeps (s.put p t) q := by
  refine h.put (u := .new) (fun _ _ r _ hnone => by cases hnone) ?_ hformed hframe
  intro q w i j a _ _ hi
  rw [FdState.Bound, (FdState.WellFormed.of_holds (s := s.view .new)
    (ToysVector.holds_new s.arrays) (fun h => by cases h) (fun h => by cases h)).2] at hi
  cases hi

variable {news : Nat → Nat} {atNull : Option FileDescription} {e : FdEvent}
  {es : List FdEvent}

theorem Separate.forkReady (h : s.Separate) (hp : s.lists p = some v) (hnew : s.NewAt v news) :
    FdState.ForkReady v (s.view v).table news (s.view .new) 0 := by
  have hformed := h.formed hp
  have hsize : v.size = (s.view v).table.length := hformed.holds.size_eq
  refine
    { parent := hformed.holds
      apart := fun r _ hnone => by cases hnone
      formed := FdState.wellFormed_new s.arrays s.descs
      live := ?_
      fresh := fun j _ hj => hnew.fresh j (by rw [hsize]; exact hj)
      distinct := fun hj hk => hnew.distinct (by rw [hsize]; exact hj) (by rw [hsize]; exact hk) }
  intro j a hj hnone
  obtain ⟨d, hd⟩ := hformed.live hj
  rw [show (s.view v).descs a = (s.view .new).descs a from rfl, hnone] at hd
  cases hd

/-- The child of a fork that gets through: a new description for every entry, and the
contents of those that the parent has. -/
theorem Separate.fork_spec (h : s.Separate) (q : Nat) (atNull : Option FileDescription)
    (hp : s.lists p = some v) (hnew : s.NewAt v news)
    (hread : atNull ≠ none ∨ ∀ j : Nat, (s.view v).table[j]? ≠ some none) :
    ∃ t, s.fork q v news atNull = .ok (s.put q t) ∧ t.WellFormed ∧
      CallFrame (s.view .new) t ∧
      t.table = (List.range' 0 v.size).map (fun j => some (news j)) ∧
      ∀ j a, (s.view v).Bound j a → t.descs (news j) = s.descs a := by
  have hready := h.forkReady hp hnew
  have hsize : v.size = (s.view v).table.length := (h.formed hp).holds.size_eq
  obtain ⟨t, hloop, hformed, hframe, htable, _, hcopied⟩ :=
    hready.loop atNull v.size (by omega) (hread.imp_right fun hnone j _ => hnone j)
  refine ⟨t, ?_, hformed, hframe, ?_, fun j a hj => hcopied j a (Nat.zero_le j) hj⟩
  · rw [FdSystem.fork, hloop]
    rfl
  · rw [htable, (FdState.WellFormed.of_holds (s := s.view .new)
      (ToysVector.holds_new s.arrays) (fun h => by cases h) (fun h => by cases h)).2,
      List.nil_append]

/-- With nothing at the address 0 a fork of a table with a null entry does not return. -/
theorem Separate.fork_null (h : s.Separate) (hp : s.lists p = some v) (hnew : s.NewAt v news)
    {j : Nat} (hnull : (s.view v).table[j]? = some none) (s' : FdSystem) :
    s.fork q v news none ≠ .ok s' := by
  have hsize : v.size = (s.view v).table.length := (h.formed hp).holds.size_eq
  intro hret
  rw [FdSystem.fork, bind_eq_ok] at hret
  obtain ⟨t, hloop, _⟩ := hret
  exact (h.forkReady hp hnew).not_loop v.size (by omega) (Nat.zero_le j) hnull t hloop

/-- A fork that returned read every entry. -/
theorem Separate.readable_of_fork (h : s.Separate) (hp : s.lists p = some v)
    (hnew : s.NewAt v news) (hret : s.fork q v news atNull = .ok s') :
    atNull ≠ none ∨ ∀ j : Nat, (s.view v).table[j]? ≠ some none := by
  by_contra hnot
  obtain ⟨hnone, hnull⟩ := not_or.mp hnot
  rw [not_not] at hnone
  subst hnone
  rw [not_forall] at hnull
  obtain ⟨j, hj⟩ := hnull
  exact h.fork_null hp hnew (not_not.mp hj) s' hret

end FdSystem

/-- The process whose list an event works on. -/
def FdEvent.process : FdEvent → Nat
  | .create p _ => p
  | .call p _ => p
  | .fork _ q _ _ => q

namespace FdSystem

variable {s s' : FdSystem} {p q : Nat} {v w : ToysVector} {news : Nat → Nat}
  {atNull : Option FileDescription} {e : FdEvent} {es : List FdEvent}

/-- One event. -/
theorem Separate.step (h : s.Separate) (hstep : s.Step e s') :
    s'.Separate ∧ ∀ q, q ≠ e.process → s.Keeps s' q := by
  cases e with
  | create p fds =>
      obtain ⟨_, hfresh, t, hfill, rfl⟩ := hstep
      obtain ⟨t', hfill', hformed, hframe⟩ :=
        (FdState.wellFormed_new s.arrays s.descs).frame_fill hfresh
      have hsame : t = t' := Except.ok.inj (hfill.symm.trans hfill')
      subst hsame
      exact h.put_new hformed hframe
  | call p call =>
      obtain ⟨v, rax, t, hp, hok, hret, rfl⟩ := hstep
      obtain ⟨hformed, hframe⟩ := (h.formed hp).frame_exec hok hret
      exact h.put (fun hne hq => h.arrays (Ne.symm hne) hp hq)
        (fun hne hq => h.descs (Ne.symm hne) hp hq) hformed hframe
  | fork p q news atNull =>
      obtain ⟨v, hp, _, hnew, hret⟩ := hstep
      have hread := h.readable_of_fork hp hnew hret
      obtain ⟨t, hret', hformed, hframe, _⟩ := h.fork_spec q atNull hp hnew hread
      rw [hret] at hret'
      cases hret'
      exact h.put_new hformed hframe

theorem separate_boot (arrays : Arrays (Option Nat)) (descs : Nat → Option FileDescription) :
    (boot arrays descs).Separate := by
  refine ⟨?_, ?_, ?_⟩
  · intro p v hp
    cases hp
  · intro p q v w _ hp
    cases hp
  · intro p q v w i j a _ hp
    cases hp

/-- A run of events. -/
theorem Separate.run (h : s.Separate) (hrun : Run Step s es s') : s'.Separate :=
  hrun.invariant (fun hs hstep => (hs.step hstep).1) h

/-- The child `q` has a table like that of its parent `p`, with descriptions of its own; the
parent has its table; and from then on neither changes what the other has. -/
structure Copied (s s' : FdSystem) (p q : Nat) (v : ToysVector) : Prop where
  child : ∃ w, s'.lists q = some w ∧
    (s'.view w).table.length = (s.view v).table.length ∧
    (∀ i : Nat, (s'.view w).table[i]? = some none ↔ (s.view v).table[i]? = some none) ∧
    ∀ i a, (s.view v).Bound i a → ∃ b, (s'.view w).Bound i b ∧ s.descs b = none ∧
      s'.descs b = s.descs a
  parent : s.Keeps s' p
  independent : ∀ {es s₁ r call s₂}, Run Step s' es s₁ → s₁.Step (.call r call) s₂ →
    (r ≠ p → s₁.Keeps s₂ p) ∧ (r ≠ q → s₁.Keeps s₂ q)

/-- A fork of a table without null entries is a copy. -/
theorem Separate.copied (h : s.Separate) (atNull : Option FileDescription)
    (hp : s.lists p = some v) (hq : s.lists q = none)
    (hnew : s.NewAt v news) (hfull : ∀ j : Nat, (s.view v).table[j]? ≠ some none) :
    ∃ s', s.fork q v news atNull = .ok s' ∧ s.Copied s' p q v := by
  obtain ⟨t, hret, hformed, hframe, htable, hcopied⟩ :=
    h.fork_spec q atNull hp hnew (.inr hfull)
  obtain ⟨hseparate, hkeeps⟩ := h.put_new (p := q) hformed hframe
  have hsize : v.size = (s.view v).table.length := (h.formed hp).holds.size_eq
  have hne : p ≠ q := by
    rintro rfl
    rw [hp] at hq
    cases hq
  have hview : ((s.put q t).view t.fdList).table = t.table := rfl
  have hentry : ∀ i < v.size, t.table[i]? = some (some (news i)) := by
    intro i hi
    rw [htable, List.getElem?_map, List.getElem?_range' (by simpa using hi)]
    simp
  refine ⟨s.put q t, hret, ⟨t.fdList, Function.update_self _ _ _, ?_, ?_, ?_⟩, hkeeps p hne, ?_⟩
  · rw [hview, htable, List.length_map, List.length_range', hsize]
  · intro i
    refine iff_of_false ?_ (hfull i)
    rw [hview, htable, List.getElem?_map]
    cases (List.range' 0 v.size)[i]? with
    | none => simp
    | some j => simp
  · intro i a hi
    have hlt : i < v.size := by
      rw [hsize]
      by_contra hge
      rw [FdState.Bound, List.getElem?_eq_none (by omega)] at hi
      cases hi
    exact ⟨news i, hentry i hlt, hnew.fresh i hlt, hcopied i a hi⟩
  · intro es s₁ r call s₂ hrun hstep
    have hkeep := ((hseparate.run hrun).step hstep).2
    exact ⟨fun hr => hkeep p (Ne.symm hr), fun hr => hkeep q (Ne.symm hr)⟩

end FdSystem

/-- After any sequence of events a fork returns when the parent's table has no null entry or
something is at the address 0, and then it copies the table exactly when there is none. -/
theorem fork_copies_iff {arrays : Arrays (Option Nat)} {descs : Nat → Option FileDescription}
    {s : FdSystem} {es : List FdEvent} {p q : Nat} {v : ToysVector} {news : Nat → Nat}
    {atNull : Option FileDescription} (hrun : Run FdSystem.Step (.boot arrays descs) es s)
    (hp : s.lists p = some v) (hq : s.lists q = none) (hnew : s.NewAt v news) :
    ((∃ s', s.fork q v news atNull = .ok s') ↔
      atNull ≠ none ∨ ∀ j : Nat, (s.view v).table[j]? ≠ some none) ∧
    ∀ s', s.fork q v news atNull = .ok s' →
      (s.Copied s' p q v ↔ ∀ j : Nat, (s.view v).table[j]? ≠ some none) := by
  have h := (FdSystem.separate_boot arrays descs).run hrun
  have hsize : v.size = (s.view v).table.length := (h.formed hp).holds.size_eq
  refine ⟨⟨?_, ?_⟩, fun s' hret => ⟨?_, ?_⟩⟩
  · rintro ⟨s', hret⟩
    exact h.readable_of_fork hp hnew hret
  · intro hread
    obtain ⟨t, hret, _⟩ := h.fork_spec q atNull hp hnew hread
    exact ⟨_, hret⟩
  · -- the child of a fork that returned has no null entry
    intro hcopied j hj
    have hread : atNull ≠ none := by
      rintro rfl
      exact h.fork_null hp hnew hj s' hret
    obtain ⟨t, hret', _, _, htable, _⟩ := h.fork_spec q atNull hp hnew (.inl hread)
    rw [hret] at hret'
    cases hret'
    obtain ⟨w, hw, _, hnull, _⟩ := hcopied.child
    have hself : (s.put q t).lists q = some t.fdList := Function.update_self _ _ _
    rw [hself] at hw
    cases hw
    have hchild := (hnull j).mpr hj
    rw [show ((s.put q t).view t.fdList).table = t.table from rfl, htable,
      List.getElem?_map] at hchild
    cases hround : (List.range' 0 v.size)[j]? with
    | none =>
        rw [hround] at hchild
        cases hchild
    | some k =>
        rw [hround] at hchild
        cases hchild
  · intro hfull
    obtain ⟨s₁, hret', hcopied⟩ := h.copied atNull hp hq hnew hfull
    rw [hret] at hret'
    cases hret'
    exact hcopied

/-- Three descriptors of process 1. -/
def threeFds : List (Option (Nat × FileDescription)) :=
  [some (1, ⟨7, WRITE, 0⟩), some (2, ⟨7, READ, 0⟩), some (3, ⟨7, WRITE, 0⟩)]

/-- The second one is closed and opened again before process 1 forks. -/
theorem fork_copies_iff_reopened :
    ∃ s v s', Run FdSystem.Step (.boot [] fun _ => none)
        [.create 1 threeFds, .call 1 (.syscallClose 1),
          .call 1 (.syscallOpen 4 (some (4, 8)))] s ∧
      s.fork 2 v (fun j => 10 + j) none = .ok s' ∧ s.Copied s' 1 2 v := by
  have hrun : ∃ s v, Run FdSystem.Step (.boot [] fun _ => none)
        [.create 1 threeFds, .call 1 (.syscallClose 1),
          .call 1 (.syscallOpen 4 (some (4, 8)))] s ∧
      s.lists 1 = some v ∧ s.lists 2 = none ∧ v.size = 3 ∧
      (s.view v).table = [some 1, some 4, some 3] ∧ ∀ j < 3, s.descs (10 + j) = none := by
    refine ⟨_, _, .cons ⟨rfl, ?_, _, rfl, rfl⟩ (.cons ⟨_, _, _, rfl, trivial, rfl, rfl⟩
      (.cons ⟨_, _, _, rfl, rfl, rfl, rfl⟩ (.nil _))), rfl, rfl, rfl, by decide, ?_⟩
    · simp [threeFds, FdState.FreshAll, FdSystem.boot]
    · decide
  obtain ⟨s, v, hrun, hp, hq, hsize, htable, hfree⟩ := hrun
  have hnew : s.NewAt v (fun j => 10 + j) := by
    refine ⟨fun j hj => hfree j (by omega), ?_⟩
    intro j k _ _ heq
    omega
  have hfull : ∀ j : Nat, (s.view v).table[j]? ≠ some none := by
    intro j hj
    have hmem := List.mem_of_getElem? hj
    rw [htable] at hmem
    revert hmem
    decide
  have hcopy : ((∃ s', s.fork 2 v (fun j => 10 + j) none = .ok s') ↔ _) ∧ _ :=
    fork_copies_iff hrun hp hq hnew
  obtain ⟨hreturns, hcopies⟩ := hcopy
  obtain ⟨s', hret⟩ := hreturns.mpr (.inr hfull)
  exact ⟨s, v, s', hrun, hret, (hcopies s' hret).mpr hfull⟩

/-- It is still closed.  Where the program has a page at the address 0 the child gets a
description with what is there, and else the fork does not return. -/
theorem closed_descriptor_copied :
    ∃ s v, Run FdSystem.Step (.boot [] fun _ => none)
        [.create 1 threeFds, .call 1 (.syscallClose 1)] s ∧
      s.lists 1 = some v ∧ (s.view v).table = [some 1, none, some 3] ∧
      (∃ s' w, s.fork 2 v (fun j => 10 + j) (some ⟨0, 0, 0⟩) = .ok s' ∧
        s'.lists 2 = some w ∧ (s'.view w).table = [some 10, some 11, some 12] ∧
        ¬s.Copied s' 1 2 v) ∧
      ∀ s', s.fork 2 v (fun j => 10 + j) none ≠ .ok s' := by
  have hrun : ∃ s v, Run FdSystem.Step (.boot [] fun _ => none)
        [.create 1 threeFds, .call 1 (.syscallClose 1)] s ∧
      s.lists 1 = some v ∧ (s.view v).table = [some 1, none, some 3] ∧
      (∃ s' w, s.fork 2 v (fun j => 10 + j) (some ⟨0, 0, 0⟩) = .ok s' ∧
        s'.lists 2 = some w ∧ (s'.view w).table = [some 10, some 11, some 12]) ∧
      s.fork 2 v (fun j => 10 + j) none = .error .nullDeref := by
    refine ⟨_, _, .cons ⟨rfl, ?_, _, rfl, rfl⟩ (.cons ⟨_, _, _, rfl, trivial, rfl, rfl⟩
      (.nil _)), rfl, by decide, ⟨_, _, rfl, rfl, by decide⟩, rfl⟩
    simp [threeFds, FdState.FreshAll, FdSystem.boot]
  obtain ⟨s, v, hrun, hp, htable, ⟨s', w, hret, hq, hchild⟩, hfault⟩ := hrun
  refine ⟨s, v, hrun, hp, htable, ⟨s', w, hret, hq, hchild, ?_⟩, ?_⟩
  · intro hcopied
    obtain ⟨w', hw', _, hnull, _⟩ := hcopied.child
    rw [hq] at hw'
    cases hw'
    have hentry := (hnull 1).mpr (by rw [htable]; rfl)
    rw [hchild] at hentry
    cases hentry
  · intro s₁ hret₁
    rw [hfault] at hret₁
    cases hret₁

end Toystar.Fs
