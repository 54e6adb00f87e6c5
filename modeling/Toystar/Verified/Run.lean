/-!
# Runs of a labelled step relation

Every whole-run result of this development has the same shape: a step
relation, an initial state, and a property of each state that a finite
sequence of events can reach.  `Run` is that sequence and `Run.invariant` the
one induction behind all of them, so a system only has to supply what a single
step preserves.
-/

namespace Toystar.Verified

variable {σ ε : Type}

/-- `Run step s es t`: the events `es`, taken in order, lead from `s` to `t`. -/
inductive Run (step : σ → ε → σ → Prop) : σ → List ε → σ → Prop
  | nil (s : σ) : Run step s [] s
  | cons {s t u : σ} {e : ε} {es : List ε} :
      step s e t → Run step t es u → Run step s (e :: es) u

variable {step : σ → ε → σ → Prop}

/-- What every step preserves holds at the end of every run. -/
theorem Run.invariant {I : σ → Prop}
    (hstep : ∀ {s e t}, I s → step s e t → I t)
    {s t : σ} {es : List ε} (hrun : Run step s es t) (hs : I s) : I t := by
  induction hrun with
  | nil _ => exact hs
  | cons h _ ih => exact ih (hstep hs h)

/-- What a step demands of its event holds of every event of a run. -/
theorem Run.forall_events {P : ε → Prop}
    (hstep : ∀ {s e t}, step s e t → P e)
    {s t : σ} {es : List ε} (hrun : Run step s es t) : ∀ e ∈ es, P e := by
  induction hrun with
  | nil _ => simp
  | cons h _ ih => exact List.forall_mem_cons.mpr ⟨hstep h, ih⟩

/-- A run of a system is a run of every system that allows more. -/
theorem Run.mono {step' : σ → ε → σ → Prop}
    (hsub : ∀ {s e t}, step s e t → step' s e t)
    {s t : σ} {es : List ε} (hrun : Run step s es t) : Run step' s es t := by
  induction hrun with
  | nil s => exact .nil s
  | cons h _ ih => exact .cons (hsub h) ih

/-- Where the same event is possible again after each step, there are runs of every
length. -/
theorem Run.exists_length {I : σ → Prop} {P : ε → Prop}
    (hstep : ∀ {s}, I s → ∃ e t, P e ∧ step s e t ∧ I t) {s : σ} (hs : I s) (n : Nat) :
    ∃ es t, es.length = n ∧ (∀ e ∈ es, P e) ∧ Run step s es t := by
  induction n generalizing s with
  | zero => exact ⟨[], s, rfl, by simp, .nil s⟩
  | succ n ih =>
      obtain ⟨e, u, he, hfirst, hu⟩ := hstep hs
      obtain ⟨es, t, hlength, hall, hrest⟩ := ih hu
      exact ⟨e :: es, t, by rw [List.length_cons, hlength],
        List.forall_mem_cons.mpr ⟨he, hall⟩, .cons hfirst hrest⟩

/-- A function of the events that follows every step follows every run. -/
theorem Run.follows {α : Type} {R : σ → α → Prop} {f : α → ε → α}
    (hstep : ∀ {s a e t}, R s a → step s e t → R t (f a e))
    {s t : σ} {a : α} {es : List ε} (hrun : Run step s es t) (h : R s a) :
    R t (es.foldl f a) := by
  induction hrun generalizing a with
  | nil _ => exact h
  | cons hfirst _ ih => exact ih (hstep h hfirst)

/-- A run over a concatenation passes through the state between the parts. -/
theorem Run.of_append {s u : σ} {es fs : List ε}
    (h : Run step s (es ++ fs) u) :
    ∃ t, Run step s es t ∧ Run step t fs u := by
  induction es generalizing s with
  | nil => exact ⟨s, .nil s, h⟩
  | cons e es ih =>
      cases h with
      | cons he hrest =>
          obtain ⟨t, h₁, h₂⟩ := ih hrest
          exact ⟨t, .cons he h₁, h₂⟩

/-- Two runs, one after the other. -/
theorem Run.append {s t u : σ} {es fs : List ε} (h : Run step s es t)
    (h' : Run step t fs u) : Run step s (es ++ fs) u := by
  induction h with
  | nil _ => exact h'
  | cons hfirst _ ih => exact .cons hfirst (ih h')

/-- One more step. -/
theorem Run.concat {s t u : σ} {es : List ε} {e : ε} (h : Run step s es t)
    (hstep : step t e u) : Run step s (es ++ [e]) u :=
  h.append (.cons hstep (.nil u))

/-- A run can be computed: an executable version of the step, folded over the
events. -/
theorem Run.of_foldlM {f : σ → ε → Option σ}
    (hf : ∀ {s e t}, f s e = some t → step s e t)
    {s t : σ} {es : List ε} (h : es.foldlM f s = some t) : Run step s es t := by
  induction es generalizing s with
  | nil =>
      obtain rfl : s = t := by simpa using h
      exact .nil s
  | cons e es ih =>
      rw [List.foldlM_cons, Option.bind_eq_bind, Option.bind_eq_some_iff] at h
      obtain ⟨u, hu, hrest⟩ := h
      exact .cons (hf hu) (ih hrest)

end Toystar.Verified
