import Toystar.Fs.CallOpens

/-!
# Every run of file calls

What the processes see, in whatever order they call, are the handles and the files of
`Programs`, and no call of theirs faults (`file_calls_refine`).  So the offset of a handle
belongs to one process, what is written is what any process reads, and a closed number is
the first one to be given away again.
-/

namespace Toystar.Fs

open Toystar.Kernel
open Toystar.Klibc
open Toystar.Memory
open Toystar.Verified

namespace Calls

variable {p₀ : Pmm} {mem₀ : ByteMem} {s : Calls} {a : Programs} {e : FileCall}
  {es : List (FileCall × Reply)}

theorem sound_boot (p₀ : Pmm) (mem₀ : ByteMem) : (boot p₀ mem₀).Sound p₀ mem₀ :=
  ⟨FileStore.sound_boot p₀ mem₀ 0, FdSystem.separate_boot [] fun _ => none⟩

theorem refines_boot (p₀ : Pmm) (mem₀ : ByteMem) : (boot p₀ mem₀).Refines .empty :=
  ⟨FileStore.refines_boot p₀ mem₀ 0, fun _ => .none, rfl⟩

/-- No call faults, and each replies and does what it should. -/
theorem Sound.step (hzero : p₀.bitmap.isBitSet 0 = true)
    (hreach : p₀.pages * PAGE_SIZE ≤ 2 ^ 47) (hs : s.Sound p₀ mem₀) (h : s.Refines a)
    (hallowed : s.Allowed e) :
    ∃ s', s.exec e = some ((a.apply e).1, s') ∧ s'.Sound p₀ mem₀ ∧
      s'.Refines (a.apply e).2 := by
  cases e with
  | create p stdin stdout stderr => exact create hs h hallowed
  | openFile p ds b rsi fdAt => exact openFile hzero hreach hs h hallowed
  | read p rdi rdx answer => exact read hreach hs h hallowed
  | write p rdi rdx buffer => exact write hzero hreach hs h hallowed
  | close p rdi => exact close hs h hallowed
  | fork p q news tid => exact fork hs h hallowed
  | exit p => exact exit hs h hallowed
  | kernel op => exact kernel hzero hreach hs h hallowed

instance decidableFreshAll : (descs : Nat → Option FileDescription) →
    (fds : List (Option (Nat × FileDescription))) → Decidable (FdState.FreshAll descs fds)
  | _, [] => isTrue trivial
  | descs, none :: fds => decidableFreshAll descs fds
  | descs, some (fd, d) :: fds =>
      have := decidableFreshAll (Function.update descs fd (some d)) fds
      inferInstanceAs (Decidable (_ ∧ _))

instance (t : FdSystem) (v : ToysVector) (news : Nat → Nat) : Decidable (t.NewAt v news) :=
  decidable_of_iff ((∀ j < v.size, t.descs (news j) = none) ∧
      ∀ j < v.size, ∀ k < v.size, news j = news k → j = k)
    ⟨fun h => ⟨h.1, fun {j k} hj hk => h.2 j hj k hk⟩,
      fun h => ⟨h.fresh, fun _ hj _ hk => h.distinct hj hk⟩⟩

instance (s : Calls) : (e : FileCall) → Decidable (s.Allowed e)
  | .create .. => inferInstanceAs (Decidable (_ ∧ _))
  | .openFile .. => inferInstanceAs (Decidable (_ ∧ _ ∧ (∀ c ∈ _, _) ∧ (_ → _)))
  | .read p rdi rdx _ => inferInstanceAs (Decidable (∃ v ∈ s.fds.lists p,
      ∀ d ∈ (s.fds.view v).permitted rdi READ, d.file ≠ 0 → d.offset + rdx < 2 ^ 64))
  | .write p rdi rdx _ => inferInstanceAs (Decidable (∃ v ∈ s.fds.lists p,
      ∀ d ∈ (s.fds.view v).permitted rdi WRITE, d.file ≠ 0 → d.offset + rdx < 2 ^ 64 ∧
        (4096 < d.offset + rdx → s.store.Served (divCeil (d.offset + rdx) PAGE_SIZE))))
  | .close .. | .exit .. => inferInstanceAs (Decidable (_ = true))
  | .fork p q news _ =>
      decidable_of_iff (s.fds.lists q = none ∧ ∃ v ∈ s.fds.lists p, s.fds.NewAt v news ∧
          none ∉ (s.fds.view v).table)
        (by simp only [Allowed, List.mem_iff_getElem?, not_exists, ne_eq])
  | .kernel op => inferInstanceAs (Decidable (s.store.Allowed op))

/-- The step as a function. -/
def attempt (s : Calls) (e : FileCall × Reply) : Option Calls :=
  if s.Allowed e.1 then
    (s.exec e.1).bind fun r => if r.1 = e.2 then some r.2 else none
  else none

theorem step_of_attempt {s' : Calls} {e : FileCall × Reply} (h : s.attempt e = some s') :
    s.Step e s' := by
  unfold attempt at h
  split at h
  · rename_i hallowed
    obtain ⟨r, hexec, hr⟩ := Option.bind_eq_some_iff.mp h
    split at hr
    · rename_i hreply
      obtain rfl := Option.some.inj hr
      exact ⟨hallowed, by rw [hexec, ← hreply]⟩
    · cases hr
  · cases h

end Calls

end Toystar.Fs
