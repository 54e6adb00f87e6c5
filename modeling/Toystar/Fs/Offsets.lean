import Toystar.Fs.Files

/-!
# What the offset of a description counts

`syscall_read` and `syscall_write` move the offset by the size of the request once `Vfs`
answered, and do not look at the answer.  So the offset counts the calls that failed in the
filesystem with those that succeeded (`Account.step`); it is the sum of the sizes of the
calls that returned 0 only as long as the others come to nothing.
-/

namespace Toystar.Fs

open Toystar.Kernel
open Toystar.Klibc
open Toystar.Verified

/-! ## Reads and writes -/

/-- What `syscall_read` and `syscall_write` have in common: the mode they ask for, their
registers, and the answer of `Vfs`. -/
structure Transfer where
  mode : UInt16
  rdi : Nat
  rdx : Nat
  result : Nat

namespace FdCall

def transfer : FdCall → Option Transfer
  | .syscallRead rdi rdx result => some ⟨READ, rdi, rdx, result⟩
  | .syscallWrite rdi rdx result => some ⟨WRITE, rdi, rdx, result⟩
  | _ => none

/-- The bytes a read or a write of descriptor `i` asks for. -/
def sizeOn (i : Nat) (e : FdCall) : Nat :=
  match e.transfer with
  | some x => if x.rdi = i then x.rdx else 0
  | none => 0

/-- A description of this mode lets the read or write pass. -/
def Permits (mode : UInt16) (e : FdCall) : Prop :=
  ∃ x, e.transfer = some x ∧ mode &&& x.mode ≠ 0

instance (mode : UInt16) (e : FdCall) : Decidable (e.Permits mode) :=
  match h : e.transfer with
  | some x => decidable_of_iff (mode &&& x.mode ≠ 0) (by simp [Permits, h])
  | none => isFalse (by simp [Permits, h])

end FdCall

/-- A call and the value it leaves in `rax`. -/
def RaxStep (s : FdState) (x : FdCall × Nat) (s' : FdState) : Prop :=
  x.1.Allowed s ∧ s.exec x.1 = .ok (x.2, s')

/-- The sum of the sizes of the reads and writes of descriptor `i` that returned 0. -/
def succeeded (i : Nat) (es : List (FdCall × Nat)) : Nat :=
  (es.map fun x => if x.2 = 0 then x.1.sizeOn i else 0).sum

/-- The same of those that the mode let pass and the filesystem did not. -/
def failed (i : Nat) (mode : UInt16) (es : List (FdCall × Nat)) : Nat :=
  (es.map fun x => if x.2 ≠ 0 ∧ x.1.Permits mode then x.1.sizeOn i else 0).sum

/-! ## The account -/

/-- Descriptor `i` names the description at `fd`, which has the mode `mode`, and an offset
that counts every call. -/
structure Account (s : FdState) (i fd : Nat) (mode : UInt16) (es : List (FdCall × Nat)) :
    Prop where
  formed : s.WellFormed
  bound : s.Bound i fd
  desc : ∃ d, s.descs fd = some d ∧ d.mode = mode ∧
    d.offset = (succeeded i es + failed i mode es) % 2 ^ 64

variable {s s' : FdState} {i fd : Nat} {mode : UInt16} {es : List (FdCall × Nat)}
  {x : FdCall × Nat} {e : FdCall} {rax : Nat}

theorem succeeded_concat : succeeded i (es ++ [x]) =
    succeeded i es + if x.2 = 0 then x.1.sizeOn i else 0 := by
  rw [succeeded, List.map_append, List.sum_append, List.map_singleton, List.sum_singleton]
  rfl

theorem failed_concat : failed i mode (es ++ [x]) =
    failed i mode es + if x.2 ≠ 0 ∧ x.1.Permits mode then x.1.sizeOn i else 0 := by
  rw [failed, List.map_append, List.sum_append, List.map_singleton, List.sum_singleton]
  rfl

/-- A call that is no read or write of `i` counts for nothing. -/
theorem count_of_sizeOn (h : e.sizeOn i = 0) :
    succeeded i (es ++ [(e, rax)]) + failed i mode (es ++ [(e, rax)]) =
      succeeded i es + failed i mode es := by
  rw [succeeded_concat, failed_concat]
  simp [h]

/-- One that the mode lets pass counts for its size, whatever it returned. -/
theorem count_of_permits (h : e.Permits mode) :
    succeeded i (es ++ [(e, rax)]) + failed i mode (es ++ [(e, rax)]) =
      succeeded i es + failed i mode es + e.sizeOn i := by
  rw [succeeded_concat, failed_concat]
  by_cases hrax : rax = 0
  · simp only [hrax, if_true, ne_eq, not_true, false_and, if_false]
    omega
  · simp only [hrax, if_false, ne_eq, not_false_eq_true, true_and, h, if_true]
    omega

/-- One that it does not counts for nothing. -/
theorem count_of_refused (h : ¬e.Permits mode) (hrax : rax ≠ 0) :
    succeeded i (es ++ [(e, rax)]) + failed i mode (es ++ [(e, rax)]) =
      succeeded i es + failed i mode es := by
  rw [succeeded_concat, failed_concat]
  simp [h, hrax]

namespace Account

/-- The description of `i` is not touched by what is no read or write of it. -/
theorem same (h : Account s i fd mode es) (hformed : s'.WellFormed) (hbound : s'.Bound i fd)
    (hdescs : s'.descs fd = s.descs fd) (hsize : e.sizeOn i = 0) :
    Account s' i fd mode (es ++ [(e, rax)]) := by
  obtain ⟨d, hd, hmode, hoffset⟩ := h.desc
  refine ⟨hformed, hbound, d, hdescs.trans hd, hmode, ?_⟩
  rw [count_of_sizeOn hsize]
  exact hoffset

/-- A read or a write. -/
theorem transfer (h : Account s i fd mode es) {x : Transfer} (he : e.transfer = some x)
    (hret : s.transfer x.mode x.rdi x.rdx x.result = .ok (rax, s')) :
    Account s' i fd mode (es ++ [(e, rax)]) := by
  obtain ⟨d, hd, hmode, hoffset⟩ := h.desc
  have hsizeOn : e.sizeOn i = if x.rdi = i then x.rdx else 0 := by
    rw [FdCall.sizeOn, he]
  have hpermits : e.Permits mode ↔ mode &&& x.mode ≠ 0 := by
    rw [FdCall.Permits, he]
    simp
  cases h.formed.transfer_cases x.mode x.rdi x.rdx x.result with
  | inl hrefused =>
      obtain ⟨hfail, hno⟩ := hrefused
      rw [hfail] at hret
      cases hret
      refine ⟨h.formed, h.bound, d, hd, hmode, ?_⟩
      by_cases hi : x.rdi = i
      · have hnot : ¬e.Permits mode := by
          rw [hpermits, not_not, ← hmode]
          exact hno fd d (hi ▸ h.bound) hd
        rw [count_of_refused hnot (by decide)]
        exact hoffset
      · rw [count_of_sizeOn (by rw [hsizeOn, if_neg hi])]
        exact hoffset
  | inr hpasses =>
      obtain ⟨fd', d', hbound', hd', hmode', hpass⟩ := hpasses
      rw [hpass] at hret
      cases hret
      have hformed := h.formed.setDesc fd' { d' with offset := (d'.offset + x.rdx) % 2 ^ 64 }
      by_cases hi : x.rdi = i
      · -- the description of `i` itself
        have hsame : some (some fd') = some (some fd) :=
          hbound'.symm.trans (hi ▸ h.bound)
        cases hsame
        rw [hd] at hd'
        cases hd'
        refine ⟨hformed, h.bound, _, FdState.setDesc_descs_self s fd _, hmode, ?_⟩
        rw [hmode] at hmode'
        rw [count_of_permits (hpermits.mpr hmode'), hsizeOn, if_pos hi]
        show (d.offset + x.rdx) % 2 ^ 64 = _
        rw [hoffset, Nat.mod_add_mod]
      · have hne : fd ≠ fd' := by
          intro hsame
          subst hsame
          exact hi (h.formed.distinct hbound' h.bound)
        exact h.same hformed h.bound (FdState.setDesc_descs_of_ne s hne _)
          (by rw [hsizeOn, if_neg hi])

/-- Every call but the `close` of `i` keeps the account. -/
theorem step (h : Account s i fd mode es) (hstep : RaxStep s x s')
    (hclose : x.1 ≠ .syscallClose i) : Account s' i fd mode (es ++ [x]) := by
  obtain ⟨e, rax⟩ := x
  obtain ⟨hok, hret⟩ := hstep
  have hkeep := h.formed.step ⟨hok, rax, hret⟩
  have hbound := (hkeep.bound h.bound hclose).1
  cases e with
  | syscallOpen rsi opened =>
      cases opened with
      | none =>
          cases hret
          exact h.same h.formed h.bound rfl rfl
      | some new =>
          obtain ⟨fd', file⟩ := new
          have hfresh : s.descs fd' = none := hok
          obtain ⟨k, s₁, hret₁, _, _, _, hdescs, _⟩ := h.formed.syscallOpen rsi file hfresh
          have hsame : (Except.ok (k, s₁) : Except Fault _) = .ok (rax, s') :=
            hret₁.symm.trans hret
          cases hsame
          have hne : fd ≠ fd' := by
            intro hsame
            subst hsame
            exact h.formed.not_bound_of_fresh hfresh h.bound
          refine h.same hkeep.formed hbound ?_ rfl
          rw [hdescs, Function.update_of_ne hne]
  | syscallRead rdi rdx result => exact h.transfer rfl hret
  | syscallWrite rdi rdx result => exact h.transfer rfl hret
  | syscallClose rdi =>
      obtain ⟨_, s₁, hret₁, _, _, hdescs, _⟩ := h.formed.syscallClose rdi
      have hsame : (Except.ok (_, s₁) : Except Fault _) = .ok (rax, s') :=
        hret₁.symm.trans hret
      cases hsame
      have hne : i ≠ rdi := fun hi => hclose (by rw [hi])
      exact h.same hkeep.formed hbound (hdescs i hne fd h.bound) rfl

theorem run (h : Account s i fd mode es) {fs : List (FdCall × Nat)}
    (hrun : Run RaxStep s fs s') (hclose : ∀ x ∈ fs, x.1 ≠ .syscallClose i) :
    Account s' i fd mode (es ++ fs) := by
  induction hrun generalizing es with
  | nil s =>
      rw [List.append_nil]
      exact h
  | @cons s t u x fs hstep _ ih =>
      rw [List.forall_mem_cons] at hclose
      have hrest := ih (h.step hstep hclose.1) hclose.2
      rw [List.append_assoc] at hrest
      exact hrest

/-- A call on `i` that returns -1 keeps the table and the other descriptions, and the
offset exactly when the mode refused it or its size is 0. -/
theorem unchanged_iff (h : Account s i fd mode es) {x : Transfer} (hi : x.rdi = i)
    (hret : s.transfer x.mode x.rdi x.rdx x.result = .ok (minusOne, s')) :
    (s'.descs fd = s.descs fd ↔ mode &&& x.mode = 0 ∨ x.rdx % 2 ^ 64 = 0) ∧
      s'.table = s.table ∧ ∀ a ≠ fd, s'.descs a = s.descs a := by
  obtain ⟨d, hd, hmode, hoffset⟩ := h.desc
  cases h.formed.transfer_cases x.mode x.rdi x.rdx x.result with
  | inl hrefused =>
      obtain ⟨hfail, hno⟩ := hrefused
      rw [hfail] at hret
      cases hret
      have hzero := hno fd d (hi ▸ h.bound) hd
      rw [hmode] at hzero
      exact ⟨iff_of_true rfl (.inl hzero), rfl, fun _ _ => rfl⟩
  | inr hpasses =>
      obtain ⟨fd', d', hbound', hd', hmode', hpass⟩ := hpasses
      have hsame : some (some fd') = some (some fd) := hbound'.symm.trans (hi ▸ h.bound)
      cases hsame
      rw [hd] at hd'
      cases hd'
      rw [hpass] at hret
      obtain rfl := congrArg Prod.snd (Except.ok.inj hret)
      refine ⟨?_, rfl, fun a ha => FdState.setDesc_descs_of_ne s ha _⟩
      rw [FdState.setDesc_descs_self, hd, or_iff_right (hmode ▸ hmode')]
      have hlt : d.offset < 2 ^ 64 := by
        rw [hoffset]
        exact Nat.mod_lt _ (by decide)
      constructor
      · intro hkept
        have hsum : (d.offset + x.rdx) % 2 ^ 64 = d.offset :=
          congrArg (·.offset) (Option.some.inj hkept)
        omega
      · intro hzero
        have hsum : (d.offset + x.rdx) % 2 ^ 64 = d.offset := by omega
        rw [hsum]

end Account

/-- An open descriptor and the calls since: the offset is the sum of the sizes of those that
returned 0 exactly when the sizes of those that failed in the filesystem come to 0.  A call
that returns -1 leaves the offset exactly when the mode refused it or its size is 0, and all
the rest of the table in any case. -/
theorem offset_counts_successes_iff {arrays : Arrays (Option Nat)}
    {descs : Nat → Option FileDescription} {fds : List (Option (Nat × FileDescription))}
    {s₀ s₁ s₂ : FdState} {es₀ : List FdCall} {rsi file : Nat}
    (hfresh : FdState.FreshAll descs fds)
    (hstart : (FdState.new arrays descs).fill fds = .ok s₀) (hbefore : Run FdStep s₀ es₀ s₁)
    (hnew : s₁.descs fd = none)
    (hopen : s₁.exec (.syscallOpen rsi (some (fd, file))) = .ok (i, s₂))
    (hrun : Run RaxStep s₂ es s) (hclose : ∀ x ∈ es, x.1 ≠ .syscallClose i) :
    (∃ d, s.Bound i fd ∧ s.descs fd = some d ∧
      (d.offset = succeeded i es % 2 ^ 64 ↔ failed i (UInt16.ofNat rsi) es % 2 ^ 64 = 0)) ∧
    ∀ e x s', e.transfer = some x → x.rdi = i → s.exec e = .ok (minusOne, s') →
      (s'.descs fd = s.descs fd ↔ UInt16.ofNat rsi &&& x.mode = 0 ∨ x.rdx % 2 ^ 64 = 0) ∧
        s'.table = s.table ∧ ∀ a ≠ fd, s'.descs a = s.descs a := by
  have hformed := FdState.WellFormed.of_fill hfresh hstart
  obtain ⟨hkeep, _, hbound, hdesc⟩ := ((hformed.run hbefore).1).keeps_open hnew hopen
  have hempty : Account s₂ i fd (UInt16.ofNat rsi) [] :=
    ⟨hkeep.formed, hbound, _, hdesc, rfl, rfl⟩
  have haccount := hempty.run hrun hclose
  rw [List.nil_append] at haccount
  constructor
  · obtain ⟨d, hd, _, hoffset⟩ := haccount.desc
    refine ⟨d, haccount.bound, hd, ?_⟩
    rw [hoffset]
    omega
  · intro e x s' he hi hret
    have htransfer : s.transfer x.mode x.rdi x.rdx x.result = .ok (minusOne, s') := by
      cases e with
      | syscallOpen rsi opened => cases he
      | syscallRead rdi rdx result =>
          cases he
          exact hret
      | syscallWrite rdi rdx result =>
          cases he
          exact hret
      | syscallClose rdi => cases he
    exact haccount.unchanged_iff hi htransfer

/-- A write of 5 bytes counts, and a read that the mode refuses does not. -/
theorem offset_counts_successes_iff_five :
    ∃ s₂ s d, (FdState.new [] fun _ => none).exec (.syscallOpen 2 (some (1, 7))) = .ok (0, s₂) ∧
      Run RaxStep s₂ [(.syscallWrite 0 5 0, 0), (.syscallRead 0 3 0, minusOne)] s ∧
      s.descs 1 = some d ∧ d.offset = 5 := by
  have hend : ∃ s₂ s,
      (FdState.new [] fun _ => none).exec (.syscallOpen 2 (some (1, 7))) = .ok (0, s₂) ∧
      Run RaxStep s₂ [(.syscallWrite 0 5 0, 0), (.syscallRead 0 3 0, minusOne)] s :=
    ⟨_, _, rfl, .cons ⟨trivial, rfl⟩ (.cons ⟨trivial, rfl⟩ (.nil _))⟩
  obtain ⟨s₂, s, hopen, hrun⟩ := hend
  obtain ⟨⟨d, _, hd, hiff⟩, _⟩ := offset_counts_successes_iff
    (show FdState.FreshAll (fun _ => none) [] from trivial) rfl (.nil _) rfl hopen hrun (by decide)
  exact ⟨s₂, s, d, hopen, hrun, hd, hiff.mpr (by decide)⟩

/-- A read of 10 bytes that fails in the filesystem moves the offset all the same. -/
theorem failed_read_moves_offset :
    ∃ s₂ s d, (FdState.new [] fun _ => none).exec (.syscallOpen 4 (some (1, 7))) = .ok (0, s₂) ∧
      Run RaxStep s₂ [(.syscallRead 0 10 minusOne, minusOne)] s ∧
      s.descs 1 = some d ∧ d.offset = 10 ∧
      succeeded 0 [(.syscallRead 0 10 minusOne, minusOne)] = 0 :=
  ⟨_, _, _, rfl, .cons ⟨trivial, rfl⟩ (.nil _), rfl, rfl, rfl⟩

end Toystar.Fs
