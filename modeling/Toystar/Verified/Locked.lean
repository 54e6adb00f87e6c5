import Mathlib.Logic.Function.Basic
import Mathlib.Logic.Relation
import Toystar.Verified.Run

/-!
# Calls under one lock

An object whose calls run their code between `acquire` and `release` of one
spin lock, and any number of callers.  The code of a call is given one access
at a time (`Guarded`), and any caller may move between two accesses of another
(`Guarded.next`).

`Linked` says where the shared state is, seen from the state that the calls
which have returned left behind: it is that state while the lock is free, and
otherwise what the one caller inside has made of it so far.  So a concurrent
run is a run of whole calls, in the order in which they released the lock
(`linearizable`), and no caller waits for ever unless the schedule lets it
(`exists_return`).
-/

namespace Toystar.Verified

variable {ι σ Call Pc Ret : Type}

/-- The code between `acquire` and `release`: where a call starts, what one access
does, and where the section ends, with the call's result. -/
structure Guarded (σ Call Pc Ret : Type) where
  enter : Call → Pc
  step : Pc → σ → Pc × σ
  result : Pc → Option Ret

/-- Where a caller is. -/
inductive Phase (Call Pc : Type)
  | outside
  | waiting (call : Call)
  | inside (call : Call) (pc : Pc)
deriving DecidableEq

/-- The call that a caller makes. -/
def Phase.call? : Phase Call Pc → Option Call
  | .outside => none
  | .waiting call => some call
  | .inside call _ => some call

/-- The lock, the shared state, the callers, and the calls that have returned. -/
structure Cores (ι σ Call Pc Ret : Type) where
  lock : Bool
  shared : σ
  phase : ι → Phase Call Pc
  history : List (ι × Call × Ret)

/-- Nobody has called yet. -/
def Cores.idle (s : σ) : Cores ι σ Call Pc Ret := ⟨false, s, fun _ => .outside, []⟩

/-- What a caller does next. -/
inductive CoreMove (ι Call : Type)
  | call (i : ι) (call : Call)
  | acquire (i : ι)
  | step (i : ι)
  | release (i : ι)
deriving DecidableEq

/-- The calls being made after a move. -/
def CoreMove.calls [DecidableEq ι] (e : CoreMove ι Call) (calls : ι → Option Call) :
    ι → Option Call :=
  match e with
  | .call i new => Function.update calls i (some new)
  | .release i => Function.update calls i none
  | _ => calls

namespace Guarded

variable [DecidableEq ι] (g : Guarded σ Call Pc Ret)

/-- One move.  A test-and-set that finds the lock taken changes nothing, so it is no
move. -/
def next (t : Cores ι σ Call Pc Ret) : CoreMove ι Call → Option (Cores ι σ Call Pc Ret)
  | .call i call =>
      match t.phase i with
      | .outside => some { t with phase := Function.update t.phase i (.waiting call) }
      | _ => none
  | .acquire i =>
      match t.phase i, t.lock with
      | .waiting call, false => some
          { t with lock := true, phase := Function.update t.phase i (.inside call (g.enter call)) }
      | _, _ => none
  | .step i =>
      match t.phase i with
      | .inside call pc =>
          if (g.result pc).isSome then none
          else some
            { t with
              shared := (g.step pc t.shared).2
              phase := Function.update t.phase i (.inside call (g.step pc t.shared).1) }
      | _ => none
  | .release i =>
      match t.phase i with
      | .inside call pc =>
          (g.result pc).map fun ret =>
            { t with
              lock := false
              phase := Function.update t.phase i .outside
              history := t.history ++ [(i, call, ret)] }
      | _ => none

def Step (t : Cores ι σ Call Pc Ret) (e : CoreMove ι Call) (t' : Cores ι σ Call Pc Ret) :
    Prop :=
  g.next t e = some t'

/-! ## A call alone -/

/-- One access of a section that has not ended. -/
def Access (a b : Pc × σ) : Prop := g.result a.1 = none ∧ g.step a.1 a.2 = b

/-- Some accesses with nobody else moving. -/
def Reaches (a b : Pc × σ) : Prop := Relation.ReflTransGen g.Access a b

/-- A whole call: from `s` it makes `s'` and returns. -/
def Atomic (s : σ) (e : ι × Call × Ret) (s' : σ) : Prop :=
  ∃ pc, g.Reaches (g.enter e.2.1, s) (pc, s') ∧ g.result pc = some e.2.2

variable {g}

theorem Reaches.access {a b c : Pc × σ} (h : g.Reaches a b) (hnext : g.Access b c) :
    g.Reaches a c :=
  Relation.ReflTransGen.tail h hnext

/-- What every access keeps holds wherever a call gets. -/
theorem Reaches.invariant {I : Pc × σ → Prop} {a b : Pc × σ}
    (hstep : ∀ {a b}, I a → g.Access a b → I b) (h : g.Reaches a b) (ha : I a) : I b := by
  induction h with
  | refl => exact ha
  | tail _ hnext ih => exact hstep ih hnext

/-- A call that has got somewhere gets to its end from there. -/
theorem Reaches.rest {a b c : Pc × σ} {ret : Ret} (h : g.Reaches a b) (hend : g.Reaches a c)
    (hret : g.result c.1 = some ret) : g.Reaches b c := by
  have hunique : Relator.RightUnique g.Access := by
    intro a b c hb hc
    rw [← hb.2, hc.2]
  rcases Relation.ReflTransGen.total_of_right_unique hunique h hend with hbc | hcb
  · exact hbc
  · -- no access leaves the end
    rcases Relation.ReflTransGen.cases_head hcb with heq | hmore
    · rw [heq]
      exact Relation.ReflTransGen.refl
    · rcases hmore with ⟨d, hnext, _⟩
      rw [hnext.1] at hret
      cases hret

/-! ## The step, by its move -/

variable {t t' : Cores ι σ Call Pc Ret} {e : CoreMove ι Call} {s : σ}

theorem step_cases (h : g.Step t e t') :
    (∃ i call, e = .call i call ∧ t.phase i = .outside ∧
      t' = { t with phase := Function.update t.phase i (.waiting call) }) ∨
    (∃ i call, e = .acquire i ∧ t.phase i = .waiting call ∧ t.lock = false ∧
      t' = { t with
        lock := true
        phase := Function.update t.phase i (.inside call (g.enter call)) }) ∨
    (∃ i call pc, e = .step i ∧ t.phase i = .inside call pc ∧ g.result pc = none ∧
      t' = { t with
        shared := (g.step pc t.shared).2
        phase := Function.update t.phase i (.inside call (g.step pc t.shared).1) }) ∨
    ∃ i call pc ret, e = .release i ∧ t.phase i = .inside call pc ∧ g.result pc = some ret ∧
      t' = { t with
        lock := false
        phase := Function.update t.phase i .outside
        history := t.history ++ [(i, call, ret)] } := by
  unfold Step at h
  cases e with
  | call i call =>
      left
      simp only [next] at h
      split at h
      · rename_i hphase
        exact ⟨i, call, rfl, hphase, (Option.some.inj h).symm⟩
      · cases h
  | acquire i =>
      right; left
      simp only [next] at h
      split at h
      · rename_i call hphase hlock
        exact ⟨i, call, rfl, hphase, hlock, (Option.some.inj h).symm⟩
      · cases h
  | step i =>
      right; right; left
      simp only [next] at h
      split at h
      · rename_i call pc hphase
        cases hres : g.result pc with
        | some ret => simp [hres] at h
        | none =>
            simp only [hres, Option.isSome_none, Bool.false_eq_true, if_false] at h
            exact ⟨i, call, pc, rfl, hphase, hres, (Option.some.inj h).symm⟩
      · cases h
  | release i =>
      right; right; right
      simp only [next] at h
      split at h
      · rename_i call pc hphase
        rw [Option.map_eq_some_iff] at h
        rcases h with ⟨ret, hres, heq⟩
        exact ⟨i, call, pc, ret, rfl, hphase, hres, heq.symm⟩
      · cases h

/-- A caller's call is the same from its move `call` to its move `release`. -/
theorem call?_step (h : g.Step t e t') (j : ι) :
    (t'.phase j).call? = e.calls (fun j => (t.phase j).call?) j := by
  rcases step_cases h with ⟨i, call, rfl, hi, rfl⟩ | ⟨i, call, rfl, hi, _, rfl⟩ |
    ⟨i, call, pc, rfl, hi, _, rfl⟩ | ⟨i, call, pc, ret, rfl, hi, _, rfl⟩
  all_goals
    by_cases hj : j = i
    · subst hj
      simp [CoreMove.calls, Phase.call?, hi]
    · simp [CoreMove.calls, hj]

/-! ## The invariant -/

/-- The shared state, seen from the state `s` that the calls which have returned left:
it is `s` while the lock is free, and what the one caller inside has made of `s` while
it is taken. -/
structure Linked (g : Guarded σ Call Pc Ret) (t : Cores ι σ Call Pc Ret) (s : σ) : Prop where
  shared_eq : t.lock = false → t.shared = s
  outside : t.lock = false → ∀ i call pc, t.phase i ≠ .inside call pc
  held : t.lock = true → ∃ i call pc, t.phase i = .inside call pc
  alone : ∀ {i j call pc call' pc'}, t.phase i = .inside call pc →
    t.phase j = .inside call' pc' → i = j
  reaches : ∀ {i call pc}, t.phase i = .inside call pc →
    g.Reaches (g.enter call, s) (pc, t.shared)

omit [DecidableEq ι] in
theorem linked_idle (s : σ) : g.Linked (.idle s : Cores ι σ Call Pc Ret) s :=
  { shared_eq := fun _ => rfl
    outside := fun _ _ _ _ h => by cases h
    held := fun h => by cases h
    alone := fun h => by cases h
    reaches := fun h => by cases h }

namespace Linked

variable {i : ι} {call : Call} {pc : Pc}

omit [DecidableEq ι] in
theorem lock_of_inside (h : g.Linked t s) (hi : t.phase i = .inside call pc) :
    t.lock = true := by
  by_contra hfree
  rw [Bool.not_eq_true] at hfree
  exact h.outside hfree i call pc hi

/-- The phase of a caller other than the one that moved. -/
theorem inside_of_update {q : Phase Call Pc} {j : ι} (hq : ∀ call pc, q ≠ .inside call pc)
    (hj : Function.update t.phase i q j = .inside call pc) :
    j ≠ i ∧ t.phase j = .inside call pc := by
  by_cases hji : j = i
  · rw [hji, Function.update_self] at hj
    exact absurd hj (hq call pc)
  · rw [Function.update_of_ne hji] at hj
    exact ⟨hji, hj⟩

theorem wait (h : g.Linked t s) (hi : t.phase i = .outside) (call : Call) :
    g.Linked { t with phase := Function.update t.phase i (.waiting call) } s := by
  have hq : ∀ (c : Call) (pc : Pc), (.waiting call : Phase Call Pc) ≠ .inside c pc := by
    intro c pc hc
    cases hc
  refine
    { shared_eq := h.shared_eq
      outside := fun hfree j c pc hj => ?_
      held := fun hlock => ?_
      alone := fun hj hk => ?_
      reaches := fun hj => ?_ }
  · exact h.outside hfree j c pc (inside_of_update hq hj).2
  · rcases h.held hlock with ⟨j, c, pc, hj⟩
    have hji : j ≠ i := by
      intro hji
      rw [hji, hi] at hj
      cases hj
    exact ⟨j, c, pc, (Function.update_of_ne hji _ _).trans hj⟩
  · exact h.alone (inside_of_update hq hj).2 (inside_of_update hq hk).2
  · exact h.reaches (inside_of_update hq hj).2

theorem acquire (h : g.Linked t s) (hfree : t.lock = false) :
    g.Linked { t with
      lock := true
      phase := Function.update t.phase i (.inside call (g.enter call)) } s := by
  have honly : ∀ {j c pc}, Function.update t.phase i (.inside call (g.enter call)) j =
      .inside c pc → j = i ∧ c = call ∧ pc = g.enter call := by
    intro j c pc hj
    by_cases hji : j = i
    · rw [hji, Function.update_self] at hj
      cases hj
      exact ⟨hji, rfl, rfl⟩
    · rw [Function.update_of_ne hji] at hj
      exact absurd hj (h.outside hfree j c pc)
  refine
    { shared_eq := fun hlock => by cases hlock
      outside := fun hlock => by cases hlock
      held := fun _ => ⟨i, call, g.enter call, Function.update_self i _ _⟩
      alone := fun hj hk => ?_
      reaches := fun hj => ?_ }
  · rw [(honly hj).1, (honly hk).1]
  · rw [(honly hj).2.1, (honly hj).2.2]
    show g.Reaches _ (g.enter call, t.shared)
    rw [h.shared_eq hfree]
    exact Relation.ReflTransGen.refl

theorem access (h : g.Linked t s) (hi : t.phase i = .inside call pc)
    (hres : g.result pc = none) :
    g.Linked { t with
      shared := (g.step pc t.shared).2
      phase := Function.update t.phase i (.inside call (g.step pc t.shared).1) } s := by
  have hlock := h.lock_of_inside hi
  have honly : ∀ {j c pc'}, Function.update t.phase i
      (.inside call (g.step pc t.shared).1) j = .inside c pc' →
      j = i ∧ c = call ∧ pc' = (g.step pc t.shared).1 := by
    intro j c pc' hj
    by_cases hji : j = i
    · rw [hji, Function.update_self] at hj
      cases hj
      exact ⟨hji, rfl, rfl⟩
    · rw [Function.update_of_ne hji] at hj
      exact absurd (h.alone hj hi) hji
  refine
    { shared_eq := fun hfree => absurd (hlock.symm.trans hfree) (by decide)
      outside := fun hfree => absurd (hlock.symm.trans hfree) (by decide)
      held := fun _ => ⟨i, call, _, Function.update_self i _ _⟩
      alone := fun hj hk => ?_
      reaches := fun hj => ?_ }
  · rw [(honly hj).1, (honly hk).1]
  · rw [(honly hj).2.1, (honly hj).2.2]
    exact (h.reaches hi).access ⟨hres, rfl⟩

theorem release (h : g.Linked t s) (hi : t.phase i = .inside call pc)
    (history : List (ι × Call × Ret)) :
    g.Linked { t with
      lock := false
      phase := Function.update t.phase i .outside
      history := history } t.shared := by
  have hq : ∀ (c : Call) (pc : Pc), (.outside : Phase Call Pc) ≠ .inside c pc := by
    intro c pc hc
    cases hc
  have hnone : ∀ j c pc', Function.update t.phase i .outside j ≠ .inside c pc' := by
    intro j c pc' hj
    have hother := inside_of_update hq hj
    exact hother.1 (h.alone hother.2 hi)
  exact
    { shared_eq := fun _ => rfl
      outside := fun _ => hnone
      held := fun hlock => by cases hlock
      alone := fun hj => absurd hj (hnone _ _ _)
      reaches := fun hj => absurd hj (hnone _ _ _) }

/-- A release makes a whole call; every other move leaves the calls that have returned
as they were. -/
theorem step (h : g.Linked t s) (hstep : g.Step t e t') :
    (t'.history = t.history ∧ g.Linked t' s) ∨
    ∃ i call pc ret, e = .release i ∧ t.phase i = .inside call pc ∧ g.result pc = some ret ∧
      t'.history = t.history ++ [(i, call, ret)] ∧ g.Atomic s (i, call, ret) t'.shared ∧
      g.Linked t' t'.shared := by
  rcases step_cases hstep with ⟨i, call, rfl, hi, rfl⟩ | ⟨i, call, rfl, hi, hfree, rfl⟩ |
    ⟨i, call, pc, rfl, hi, hres, rfl⟩ | ⟨i, call, pc, ret, rfl, hi, hres, rfl⟩
  · exact .inl ⟨rfl, h.wait hi call⟩
  · exact .inl ⟨rfl, h.acquire hfree⟩
  · exact .inl ⟨rfl, h.access hi hres⟩
  · exact .inr ⟨i, call, pc, ret, rfl, hi, hres, rfl, ⟨pc, h.reaches hi, hres⟩,
      h.release hi _⟩

end Linked

/-! ## Runs -/

/-- Every concurrent run is a run of whole calls, in the order of their releases. -/
theorem linearizable {s₀ : σ} {es : List (CoreMove ι Call)} {t : Cores ι σ Call Pc Ret}
    (hrun : Run g.Step (.idle s₀) es t) :
    ∃ s, Run g.Atomic s₀ t.history s ∧ g.Linked t s := by
  refine hrun.invariant (I := fun t => ∃ s, Run g.Atomic s₀ t.history s ∧ g.Linked t s) ?_
    ⟨s₀, .nil s₀, linked_idle s₀⟩
  intro t e t' hinv hstep
  rcases hinv with ⟨s, hdone, h⟩
  rcases h.step hstep with ⟨hsame, h'⟩ | ⟨_, _, _, _, _, _, _, hmore, hcall, h'⟩
  · rw [hsame]
    exact ⟨s, hdone, h'⟩
  · rw [hmore]
    exact ⟨t'.shared, hdone.concat hcall, h'⟩

/-- The caller inside can finish, if the calls end when nobody else moves. -/
theorem exists_finish {i : ι} {call : Call} {pc : Pc} (hi : t.phase i = .inside call pc)
    {a : Pc × σ} {ret : Ret} (hend : g.Reaches (pc, t.shared) a)
    (hret : g.result a.1 = some ret) :
    ∃ es t', Run g.Step t es t' ∧ t'.lock = false ∧
      t'.phase = Function.update t.phase i .outside ∧
      t'.history = t.history ++ [(i, call, ret)] := by
  obtain ⟨b, hb⟩ : ∃ b, (pc, t.shared) = b := ⟨_, rfl⟩
  rw [hb] at hend
  induction hend using Relation.ReflTransGen.head_induction_on generalizing t pc with
  | refl =>
      rw [← hb] at hret
      refine ⟨[.release i], { t with
        lock := false
        phase := Function.update t.phase i .outside
        history := t.history ++ [(i, call, ret)] }, .cons ?_ (.nil _), rfl, rfl, rfl⟩
      simp only [Step, next, hi, hret, Option.map_some]
  | head hnext _ ih =>
      rw [← hb] at hnext
      have hmove : g.Step t (.step i) { t with
          shared := (g.step pc t.shared).2
          phase := Function.update t.phase i (.inside call (g.step pc t.shared).1) } := by
        simp only [Step, next, hi, hnext.1, Option.isSome_none, Bool.false_eq_true, if_false]
      obtain ⟨es, t', hrun, hlock, hphase, hhistory⟩ :=
        ih (t := { t with
          shared := (g.step pc t.shared).2
          phase := Function.update t.phase i (.inside call (g.step pc t.shared).1) })
          (Function.update_self i _ _) hnext.2
      refine ⟨_, t', .cons hmove hrun, hlock, ?_, hhistory⟩
      rw [hphase, Function.update_idem]

/-- Some way of going on lets a caller that waits return, if the calls end when nobody
else moves. -/
theorem exists_return (hends : ∀ call s, ∃ ret s', g.Atomic s ((), call, ret) s')
    (h : g.Linked t s) {i : ι} {call : Call} (hi : t.phase i = .waiting call) :
    ∃ es t' ret, Run g.Step t es t' ∧ t'.phase i = .outside ∧
      t'.history.getLast? = some (i, call, ret) := by
  -- with the lock free the caller takes it and runs to its end
  have hfree : ∀ {t : Cores ι σ Call Pc Ret}, t.lock = false → t.phase i = .waiting call →
      ∃ es t' ret, Run g.Step t es t' ∧ t'.phase i = .outside ∧
        t'.history.getLast? = some (i, call, ret) := by
    intro t hlock hi
    obtain ⟨ret, s', pc, hend, hret⟩ := hends call t.shared
    have hmove : g.Step t (.acquire i) { t with
        lock := true
        phase := Function.update t.phase i (.inside call (g.enter call)) } := by
      simp only [Step, next, hi, hlock]
    obtain ⟨es, t', hrun, _, hphase, hhistory⟩ := exists_finish
      (t := { t with
        lock := true
        phase := Function.update t.phase i (.inside call (g.enter call)) })
      (Function.update_self i _ _) hend hret
    refine ⟨_, t', ret, .cons hmove hrun, ?_, ?_⟩
    · rw [hphase, Function.update_self]
    · rw [hhistory, List.getLast?_concat]
  cases hlock : t.lock with
  | false => exact hfree hlock hi
  | true =>
      obtain ⟨j, call', pc, hj⟩ := h.held hlock
      obtain ⟨ret, s', pc', hend, hret⟩ := hends call' s
      have hji : i ≠ j := by
        intro hij
        rw [hij, hj] at hi
        cases hi
      obtain ⟨es, t', hrun, hlock', hphase, _⟩ :=
        exists_finish hj ((h.reaches hj).rest hend hret) hret
      have hi' : t'.phase i = .waiting call := by
        rw [hphase, Function.update_of_ne hji, hi]
      obtain ⟨es', t'', ret', hrun', hdone⟩ := hfree hlock' hi'
      exact ⟨es ++ es', t'', ret', hrun.append hrun', hdone⟩

end Guarded

end Toystar.Verified
