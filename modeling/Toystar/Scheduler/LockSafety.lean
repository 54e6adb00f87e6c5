import Toystar.Scheduler.Locks

/-!
# Self-deadlock through the timer

The handler spins for a lock that the code underneath it holds in two ways: the
timer interrupts a context that holds `sched_lock`, or it interrupts one that
holds `heap_lock` and then finds somebody waiting, so that `waiting_queue.pop`
needs the allocator.  `LockInv` is kept by every other step, whatever the
interleaving of the cores.
-/

namespace Toystar.Scheduler

open Toystar.Verified

variable {κ : Type}

/-! ## The property and the condition -/

namespace LockState

/-- The context that core `c` executes or interrupted holds lock `l`. -/
def Holds (s : LockState κ) (c : κ) (l : LockName) : Prop :=
  ∃ t, s.context c = some t ∧ s.owner l = some (.thread t)

/-- Some core inside `reschedule` waits for a lock held by the context it
interrupted. -/
def Stuck (s : LockState κ) : Prop :=
  ∃ c l rest, s.handler c = .lock (.acquire l) :: rest ∧ s.Holds c l

/-- The timer does not interrupt a context that holds `sched_lock`, and the
handler does not take a thread from the queue over one that holds
`heap_lock`. -/
def Quiet (s : LockState κ) : LockEvent κ → Prop
  | .tick c => ¬s.Holds c .sched
  | .handle c _ => ¬((s.handler c).head? = some .pick ∧ s.waitingQueue ≠ [] ∧
      s.Holds c .heap)
  | _ => True

end LockState

/-! ## The invariant -/

/-- The operations after which the previous thread has left the core. -/
def HandlerOp.isTail : HandlerOp → Bool
  | .lock (.release .sched) | .switchTo _ => true
  | _ => false

/-- The handler has not put the previous thread away yet. -/
def Keeps (h : List HandlerOp) : Prop := h = [] ∨ ∃ op ∈ h, op.isTail = false

/-- A core with this context and handler has thread `t`, as its context or as
the next one. -/
def OnCore (context : Option Nat) (h : List HandlerOp) (t : Nat) : Prop :=
  (Keeps h ∧ context = some t) ∨ .switchTo t ∈ h

def LockState.At (s : LockState κ) (c : κ) (t : Nat) : Prop :=
  OnCore (s.context c) (s.handler c) t

def LockOp.isHeap : LockOp → Bool
  | .acquire .heap | .release .heap | .take => true
  | _ => false

/-- An operation that neither calls the allocator nor leads to such a call. -/
def HandlerOp.isPlain : HandlerOp → Bool
  | .lock op => !op.isHeap
  | .pick | .switchTo _ => true
  | .push _ | .store _ => false

/-- What may be left of a handler over a context that holds a lock. -/
def SafeOver : LockName → List HandlerOp → Prop
  | .sched, h => h = []
  | .heap, h => ∀ op ∈ h, op.isPlain = true

/-- The forms of a handler over the context `context`. -/
inductive Shape (context : Option Nat) : List HandlerOp → Prop
  | outside : Shape context []
  | start : Shape context [.lock (.acquire .sched), .pick]
  | picking : Shape context [.pick]
  | pushing {pre : List LockOp} {mid : List HandlerOp} {t : Nat}
      (hpre : ∀ op ∈ pre, op.isHeap = true)
      (hmid : mid = [] ∨ ∃ r, context = some r ∧ (mid = [.push r] ∨ mid = [.store r])) :
      Shape context (pre.map .lock ++ (mid ++ [.lock (.release .sched), .switchTo t]))
  | switching {t : Nat} : Shape context [.switchTo t]

theorem Shape.tail {context : Option Nat} {t : Nat} :
    Shape context [.lock (.release .sched), .switchTo t] := by
  have hpre : ∀ op ∈ ([] : List LockOp), op.isHeap = true := by simp
  exact .pushing hpre (.inl rfl)

structure LockInv (s : LockState κ) : Prop where
  shape : ∀ c, Shape (s.context c) (s.handler c)
  current : ∀ c r, s.handler c = [] ∨ .pick ∈ s.handler c → s.running c = some r →
    s.context c = some r
  distinct : ∀ c t, Keeps (s.handler c) → s.context c = some t →
    .switchTo t ∉ s.handler c
  apart : ∀ c d t, s.At c t → s.At d t → c = d
  waiting : ∀ c t, s.At c t → t ∉ s.waitingQueue
  nodup : s.waitingQueue.Nodup
  owner : ∀ l t, s.owner l = some (.thread t) →
    t ∉ s.waitingQueue ∧ ∀ c, s.At c t → SafeOver l (s.handler c)

theorem lockInv_of_initial {s : LockState κ} (h : s.Initial) : LockInv s := by
  have hat : ∀ c t, s.At c t → s.context c = some t := by
    intro c t hct
    rcases hct with ⟨_, hctx⟩ | hmem
    · exact hctx
    · rw [h.enabled c] at hmem
      cases hmem
  constructor
  case shape =>
    intro c
    rw [h.enabled c]
    exact .outside
  case current =>
    intro c r _ hr
    rw [h.current c, hr]
  case distinct =>
    intro c t _ _
    rw [h.enabled c]
    exact List.not_mem_nil
  case apart => exact fun c d t hc hd => h.apart c d t (hat c t hc) (hat d t hd)
  case waiting => exact fun c t hc => h.waiting c t (hat c t hc)
  case nodup => exact h.nodup
  case owner =>
    intro l t hown
    rw [h.free l] at hown
    cases hown

namespace LockInv

variable {s s' : LockState κ}

/-- No core waits for its own context. -/
theorem not_stuck (hs : LockInv s) : ¬s.Stuck := by
  intro h
  rcases h with ⟨c, l, rest, hh, t, hctx, hown⟩
  have hat : s.At c t := by
    refine .inl ⟨.inr ⟨.lock (.acquire l), by simp [hh], rfl⟩, hctx⟩
  have hsafe := (hs.owner l t hown).2 c hat
  rw [hh] at hsafe
  cases l with
  | sched => cases hsafe
  | heap =>
      have := hsafe (.lock (.acquire .heap)) List.mem_cons_self
      simp [HandlerOp.isPlain, LockOp.isHeap] at this

/-- A step of core `c` keeps the invariant when it does so on that core and
moves threads only between the core and the queue, or brings new ones. -/
theorem of_local (hs : LockInv s) (c : κ) {context : Option Nat} {h : List HandlerOp}
    (hctx' : s'.context c = context) (hh' : s'.handler c = h)
    (hother : ∀ d, d ≠ c → s'.handler d = s.handler d ∧ s'.context d = s.context d ∧
      s'.running d = s.running d)
    (hshape : Shape context h)
    (hcurrent : ∀ r, h = [] ∨ .pick ∈ h → s'.running c = some r → context = some r)
    (hdistinct : ∀ t, Keeps h → context = some t → .switchTo t ∉ h)
    (hat : ∀ t, OnCore context h t → s.At c t ∨ t ∈ s.waitingQueue)
    (hqueue : ∀ t ∈ s'.waitingQueue, (t ∈ s.waitingQueue ∨ s.At c t ∨ s.Fresh t) ∧
      ¬OnCore context h t)
    (hnodup : s'.waitingQueue.Nodup)
    (howner : ∀ l t, s'.owner l = some (.thread t) → t ∉ s'.waitingQueue ∧
      (OnCore context h t → SafeOver l h) ∧
      ∀ d, d ≠ c → s.At d t → SafeOver l (s.handler d)) : LockInv s' := by
  subst hctx' hh'
  have hat' : ∀ d t, d ≠ c → (s'.At d t ↔ s.At d t) := by
    intro d t hd
    rcases hother d hd with ⟨hh, hctx, _⟩
    unfold LockState.At
    rw [hh, hctx]
  have happart : ∀ d t, d ≠ c → s'.At c t → ¬s'.At d t := by
    intro d t hd hc hdt
    rw [hat' d t hd] at hdt
    rcases hat t hc with hold | hq
    · exact hd (hs.apart d c t hdt hold)
    · exact hs.waiting d t hdt hq
  constructor
  case shape =>
    intro d
    by_cases hd : d = c
    · rw [hd]
      exact hshape
    · rcases hother d hd with ⟨hh, hctx, _⟩
      rw [hh, hctx]
      exact hs.shape d
  case current =>
    intro d r
    by_cases hd : d = c
    · rw [hd]
      exact hcurrent r
    · rcases hother d hd with ⟨hh, hctx, hrun⟩
      rw [hh, hctx, hrun]
      exact hs.current d r
  case distinct =>
    intro d t
    by_cases hd : d = c
    · rw [hd]
      exact hdistinct t
    · rcases hother d hd with ⟨hh, hctx, _⟩
      rw [hh, hctx]
      exact hs.distinct d t
  case apart =>
    intro d e t hd he
    by_cases hdc : d = c
    · by_cases hec : e = c
      · rw [hdc, hec]
      · rw [hdc] at hd
        exact absurd he (happart e t hec hd)
    · by_cases hec : e = c
      · rw [hec] at he
        exact absurd hd (happart d t hdc he)
      · exact hs.apart d e t ((hat' d t hdc).mp hd) ((hat' e t hec).mp he)
  case waiting =>
    intro d t hd hmem
    rcases hqueue t hmem with ⟨hfrom, hnot⟩
    by_cases hdc : d = c
    · rw [hdc] at hd
      exact hnot hd
    · have hold := (hat' d t hdc).mp hd
      rcases hfrom with hq | hc | hfresh
      · exact hs.waiting d t hold hq
      · exact hdc (hs.apart d c t hold hc)
      · rcases hold with ⟨_, hctx⟩ | hsw
        · exact hfresh.2.1 d hctx
        · exact hfresh.2.2.1 d hsw
  case nodup => exact hnodup
  case owner =>
    intro l t hown
    rcases howner l t hown with ⟨hq, hc, hrest⟩
    refine ⟨hq, ?_⟩
    intro d hd
    by_cases hdc : d = c
    · rw [hdc] at hd ⊢
      exact hc hd
    · rw [(hother d hdc).1]
      exact hrest d hdc ((hat' d t hdc).mp hd)

theorem safeOver_nil (l : LockName) : SafeOver l [] := by
  cases l with
  | sched => rfl
  | heap => exact fun op hop => absurd hop List.not_mem_nil

/-- A context holds no lock under a handler that is about to call the
allocator. -/
theorem not_safeOver {l : LockName} {op : HandlerOp} {h : List HandlerOp}
    (hop : op.isPlain = false) : ¬SafeOver l (op :: h) := by
  intro hsafe
  cases l with
  | sched => cases hsafe
  | heap =>
      have := hsafe op List.mem_cons_self
      rw [hop] at this
      cases this

/-- The lock operations of `who` make nobody else an owner. -/
theorem owner_of_exec {owner owner' : LockName → Option (Owner κ)} {who w : Owner κ}
    {found : Bool} {op : LockOp} (hexec : op.exec owner who found = some owner')
    {l : LockName} (hw : owner' l = some w) : owner l = some w ∨ w = who := by
  cases op with
  | acquire m =>
      simp only [LockOp.exec] at hexec
      split at hexec
      · cases hexec
        by_cases hlm : l = m
        · rw [hlm, Function.update_self] at hw
          exact .inr (Option.some.inj hw).symm
        · rw [Function.update_of_ne hlm] at hw
          exact .inl hw
      · cases hexec
  | release m =>
      cases hexec
      by_cases hlm : l = m
      · rw [hlm, Function.update_self] at hw
        cases hw
      · rw [Function.update_of_ne hlm] at hw
        exact .inl hw
  | take =>
      cases hexec
      split at hw
      · by_cases hlm : l = .heap
        · rw [hlm, Function.update_self] at hw
          cases hw
        · rw [Function.update_of_ne hlm] at hw
          exact .inl hw
      · exact .inl hw

theorem heapOps_isHeap (calls : List HeapCall) :
    ∀ op ∈ heapOps calls, op.isHeap = true := by
  intro op hop
  rcases List.mem_flatMap.mp hop with ⟨call, _, hmem⟩
  cases call with
  | new =>
      simp only [HeapCall.ops, List.mem_cons, List.not_mem_nil, or_false] at hmem
      rcases hmem with rfl | rfl <;> rfl
  | delete =>
      simp only [HeapCall.ops, List.mem_cons, List.not_mem_nil, or_false] at hmem
      rcases hmem with rfl | rfl <;> rfl

/-- The context of a core outside the handler is on it. -/
theorem at_context {c : κ} {t : Nat} (hh : s.handler c = [])
    (hctx : s.context c = some t) : s.At c t := .inl ⟨.inl hh, hctx⟩

theorem onCore_nil {context : Option Nat} {t : Nat} :
    OnCore context [] t ↔ context = some t := by
  simp [OnCore, Keeps]

variable {c : κ}

/-! ## Kernel calls -/

/-- A step of the code on a core, outside the handler. -/
theorem of_step (hs : LockInv s) (hh : s.handler c = []) (hh' : s'.handler = s.handler)
    (hctx' : s'.context = s.context)
    (hrun : ∀ d r, s'.running d = some r → s.running d = some r)
    (hrun' : ∀ d, d ≠ c → s'.running d = s.running d)
    (hqueue : s'.waitingQueue = s.waitingQueue ∨
      ∃ u, s.Fresh u ∧ s'.waitingQueue = s.waitingQueue ++ [u])
    (howner : ∀ l t, s'.owner l = some (.thread t) →
      s.owner l = some (.thread t) ∨ s.context c = some t)
    (hkeep : s'.owner = s.owner ∨ s'.waitingQueue = s.waitingQueue) :
    LockInv s' := by
  have hmem : ∀ t ∈ s'.waitingQueue, t ∈ s.waitingQueue ∨ s.Fresh t := by
    intro t ht
    rcases hqueue with hq | ⟨u, hu, hq⟩
    · exact .inl (hq ▸ ht)
    · rw [hq] at ht
      rcases List.mem_append.mp ht with ht | ht
      · exact .inl ht
      · rw [List.mem_singleton.mp ht]
        exact .inr hu
  have hfresh : ∀ t, s.Fresh t → ¬s.At c t := by
    intro t hf hat
    rcases hat with ⟨_, hctx⟩ | hsw
    · exact hf.2.1 c hctx
    · exact hf.2.2.1 c hsw
  apply hs.of_local c (congrFun hctx' c) ((congrFun hh' c).trans hh)
  · intro d hd
    exact ⟨congrFun hh' d, congrFun hctx' d, hrun' d hd⟩
  · exact .outside
  · intro r _ hr
    exact hs.current c r (.inl hh) (hrun c r hr)
  · exact fun t _ _ => List.not_mem_nil
  · intro t ht
    exact .inl (at_context hh (onCore_nil.mp ht))
  · intro t ht
    have hnot : ¬OnCore (s.context c) [] t := by
      intro h
      have hat := at_context hh (onCore_nil.mp h)
      rcases hmem t ht with hq | hf
      · exact hs.waiting c t hat hq
      · exact hfresh t hf hat
    rcases hmem t ht with hq | hf
    · exact ⟨.inl hq, hnot⟩
    · exact ⟨.inr (.inr hf), hnot⟩
  · rcases hqueue with hq | ⟨u, hu, hq⟩
    · rw [hq]
      exact hs.nodup
    · rw [hq, List.nodup_append_comm, List.singleton_append, List.nodup_cons]
      exact ⟨hu.1, hs.nodup⟩
  · intro l t hown
    have hsafe : t ∉ s.waitingQueue ∧ ∀ d, d ≠ c → s.At d t → SafeOver l (s.handler d) := by
      rcases howner l t hown with hold | hctx
      · exact ⟨(hs.owner l t hold).1, fun d _ => (hs.owner l t hold).2 d⟩
      · have hat := at_context hh hctx
        exact ⟨hs.waiting c t hat, fun d hd h => absurd (hs.apart d c t h hat) hd⟩
    refine ⟨?_, fun _ => safeOver_nil l, hsafe.2⟩
    intro ht
    rcases hkeep with hkeep | hkeep
    · rcases hmem t ht with hq | hf
      · exact hsafe.1 hq
      · rw [hkeep] at hown
        exact hf.2.2.2 l hown
    · rw [hkeep] at ht
      exact hsafe.1 ht

variable [DecidableEq κ] {found : Bool}

theorem step (hs : LockInv s) (hh : s.handler c = []) {t : Nat}
    (hctx : s.context c = some t)
    (hfresh : ∀ u rest, s.code t = .store u :: rest → s.Fresh u)
    (hstep : s.stepCode c t found (s.code t) = some s') : LockInv s' := by
  cases hcode : s.code t with
  | nil =>
      rw [hcode] at hstep
      cases hstep
  | cons op rest =>
      rw [hcode] at hstep
      cases op with
      | lock op =>
          simp only [LockState.stepCode, Option.bind_eq_bind,
            Option.bind_eq_some_iff] at hstep
          rcases hstep with ⟨owner, hexec, hret⟩
          cases hret
          refine hs.of_step hh rfl rfl (fun _ _ h => h) (fun _ _ => rfl) (.inl rfl)
            ?_ (.inr rfl)
          intro l u hu
          rcases owner_of_exec hexec hu with hold | hnew
          · exact .inl hold
          · cases hnew
            exact .inr hctx
      | push u =>
          cases hstep
          exact hs.of_step hh rfl rfl (fun _ _ h => h) (fun _ _ => rfl) (.inl rfl)
            (fun _ _ h => .inl h) (.inl rfl)
      | store u =>
          cases hstep
          exact hs.of_step hh rfl rfl (fun _ _ h => h) (fun _ _ => rfl)
            (.inr ⟨u, hfresh u rest hcode, rfl⟩) (fun _ _ h => .inl h) (.inl rfl)
      | leave =>
          cases hstep
          refine hs.of_step hh rfl rfl ?_ ?_ (.inl rfl) (fun _ _ h => .inl h) (.inl rfl)
          · intro d r hr
            by_cases hd : d = c
            · subst hd
              simp at hr
            · simpa [hd] using hr
          · exact fun d hd => Function.update_of_ne hd _ _

/-! ## The handler -/

/-- The timer fires over a context without `sched_lock`. -/
theorem tick (hs : LockInv s) (hh : s.handler c = []) (hquiet : ¬s.Holds c .sched) :
    LockInv { s with
      handler := Function.update s.handler c [.lock (.acquire .sched), .pick] } := by
  have hat : ∀ t, OnCore (s.context c) [.lock (.acquire .sched), .pick] t →
      s.context c = some t := by
    intro t h
    rcases h with ⟨_, h⟩ | h
    · exact h
    · simp at h
  apply hs.of_local c rfl (Function.update_self ..)
  · intro d hd
    exact ⟨Function.update_of_ne hd _ _, rfl, rfl⟩
  · exact .start
  · intro r _ hr
    exact hs.current c r (.inl hh) hr
  · intro t _ _
    simp
  · intro t ht
    exact .inl (at_context hh (hat t ht))
  · intro t ht
    exact ⟨.inl ht, fun h => hs.waiting c t (at_context hh (hat t h)) ht⟩
  · exact hs.nodup
  · intro l t hown
    rcases hs.owner l t hown with ⟨hq, hsafe⟩
    refine ⟨hq, ?_, fun d _ => hsafe d⟩
    intro ht
    cases l with
    | sched => exact absurd ⟨t, hat t ht, hown⟩ hquiet
    | heap =>
        intro op hop
        rcases List.mem_cons.mp hop with rfl | hop
        · rfl
        · rw [List.mem_singleton.mp hop]
          rfl

/-- The handler performs a lock operation and goes on. -/
theorem handler_lock (hs : LockInv s) {op : HandlerOp} {h' : List HandlerOp}
    (hh : s.handler c = op :: h') (hne : h' ≠ [])
    (hshape : Shape (s.context c) h') {owner : LockName → Option (Owner κ)}
    (howner : ∀ l t, owner l = some (.thread t) → s.owner l = some (.thread t)) :
    LockInv { s with owner := owner, handler := Function.update s.handler c h' } := by
  have hsub : ∀ o ∈ h', o ∈ s.handler c := by
    intro o ho
    rw [hh]
    exact List.mem_cons_of_mem _ ho
  have hkeeps : Keeps h' → Keeps (s.handler c) := by
    intro hk
    rcases hk with hk | ⟨o, ho, htail⟩
    · exact absurd hk hne
    · exact .inr ⟨o, hsub o ho, htail⟩
  have hat : ∀ t, OnCore (s.context c) h' t → s.At c t := by
    intro t ht
    rcases ht with ⟨hk, hctx⟩ | hsw
    · exact .inl ⟨hkeeps hk, hctx⟩
    · exact .inr (hsub _ hsw)
  apply hs.of_local c rfl (Function.update_self ..)
  · intro d hd
    exact ⟨Function.update_of_ne hd _ _, rfl, rfl⟩
  · exact hshape
  · intro r hr
    rcases hr with hr | hr
    · exact absurd hr hne
    · exact hs.current c r (.inr (hsub _ hr))
  · exact fun t hk hctx hmem => hs.distinct c t (hkeeps hk) hctx (hsub _ hmem)
  · exact fun t ht => .inl (hat t ht)
  · exact fun t ht => ⟨.inl ht, fun h => hs.waiting c t (hat t h) ht⟩
  · exact hs.nodup
  · intro l t hown
    rcases hs.owner l t (howner l t hown) with ⟨hq, hsafe⟩
    refine ⟨hq, ?_, fun d _ => hsafe d⟩
    intro ht
    have hold := hsafe c (hat t ht)
    cases l with
    | sched =>
        rw [hh] at hold
        cases hold
    | heap => exact fun o ho => hold o (hsub o ho)

/-- The handler takes the head of the queue, over a context without
`heap_lock`. -/
theorem pick_cons (hs : LockInv s) (hh : s.handler c = [.pick])
    (hquiet : ¬s.Holds c .heap) {t : Nat} {rest : List Nat}
    (hq : s.waitingQueue = t :: rest) {mid : List HandlerOp}
    (hmid : mid = [] ∨ ∃ r, s.context c = some r ∧ (mid = [.push r] ∨ mid = [.store r]))
    (calls : List HeapCall) :
    LockInv { s with
      waitingQueue := rest
      handler := Function.update s.handler c ((heapOps calls).map .lock ++
        (mid ++ [.lock (.release .sched), .switchTo t])) } := by
  have hkeep : ∀ u, s.context c = some u → s.At c u := by
    intro u hu
    refine .inl ⟨.inr ⟨.pick, ?_, rfl⟩, hu⟩
    simp [hh]
  have hnodup := hs.nodup
  rw [hq, List.nodup_cons] at hnodup
  have htq : t ∈ s.waitingQueue := by simp [hq]
  have hsw : ∀ u, HandlerOp.switchTo u ∈ (heapOps calls).map .lock ++
      (mid ++ [.lock (.release .sched), .switchTo t]) → u = t := by
    intro u hu
    rcases List.mem_append.mp hu with hu | hu
    · simp at hu
    · rcases List.mem_append.mp hu with hu | hu
      · rcases hmid with rfl | ⟨r, _, rfl | rfl⟩ <;> simp at hu
      · simpa using hu
  have hat : ∀ u, OnCore (s.context c) ((heapOps calls).map .lock ++
      (mid ++ [.lock (.release .sched), .switchTo t])) u →
        s.context c = some u ∨ u = t := by
    intro u hu
    rcases hu with ⟨_, hu⟩ | hu
    · exact .inl hu
    · exact .inr (hsw u hu)
  apply hs.of_local c rfl (Function.update_self ..)
  · intro d hd
    exact ⟨Function.update_of_ne hd _ _, rfl, rfl⟩
  · exact .pushing (heapOps_isHeap calls) hmid
  · intro r hr
    rcases hr with hr | hr
    · simp at hr
    · rcases hmid with rfl | ⟨_, _, rfl | rfl⟩ <;> simp at hr
  · intro u _ hctx hmem
    rw [hsw u hmem] at hctx
    exact hs.waiting c t (hkeep t hctx) htq
  · intro u hu
    rcases hat u hu with hctx | rfl
    · exact .inl (hkeep u hctx)
    · exact .inr htq
  · intro u hu
    refine ⟨.inl (by rw [hq]; exact List.mem_cons_of_mem _ hu), ?_⟩
    intro h
    rcases hat u h with hctx | rfl
    · exact hs.waiting c u (hkeep u hctx) (by rw [hq]; exact List.mem_cons_of_mem _ hu)
    · exact hnodup.1 hu
  · exact hnodup.2
  · intro l u hown
    rcases hs.owner l u hown with ⟨huq, hsafe⟩
    refine ⟨fun hu => huq (by rw [hq]; exact List.mem_cons_of_mem _ hu), ?_,
      fun d _ => hsafe d⟩
    intro hu
    rcases hat u hu with hctx | rfl
    · cases l with
      | sched =>
          have := hsafe c (hkeep u hctx)
          rw [hh] at this
          cases this
      | heap => exact absurd ⟨u, hctx, hown⟩ hquiet
    · exact absurd htq huq

/-- Nobody waits: the handler returns to the thread it interrupted. -/
theorem pick_nil (hs : LockInv s) (hh : s.handler c = [.pick]) {r : Nat}
    (hctx : s.context c = some r) :
    LockInv { s with
      waitingQueue := []
      handler := Function.update s.handler c [.lock (.release .sched), .switchTo r] } := by
  have hr : s.At c r := by
    refine .inl ⟨.inr ⟨.pick, ?_, rfl⟩, hctx⟩
    simp [hh]
  have hkeeps : ¬Keeps [.lock (.release .sched), .switchTo r] := by
    simp [Keeps, HandlerOp.isTail]
  have hat : ∀ u, OnCore (s.context c) [.lock (.release .sched), .switchTo r] u →
      u = r := by
    intro u hu
    rcases hu with ⟨hk, _⟩ | hu
    · exact absurd hk hkeeps
    · simpa using hu
  apply hs.of_local c rfl (Function.update_self ..)
  · intro d hd
    exact ⟨Function.update_of_ne hd _ _, rfl, rfl⟩
  · exact Shape.tail
  · intro u hu
    rcases hu with hu | hu <;> simp at hu
  · exact fun u hk => absurd hk hkeeps
  · intro u hu
    rw [hat u hu]
    exact .inl hr
  · exact fun u hu => absurd hu List.not_mem_nil
  · exact List.nodup_nil
  · intro l u hown
    rcases hs.owner l u hown with ⟨_, hsafe⟩
    refine ⟨List.not_mem_nil, ?_, fun d _ => hsafe d⟩
    intro hu
    rw [hat u hu] at hsafe
    have hold := hsafe c hr
    cases l with
    | sched =>
        rw [hh] at hold
        cases hold
    | heap =>
        intro op hop
        simp only [List.mem_cons, List.not_mem_nil, or_false] at hop
        rcases hop with rfl | rfl <;> rfl

/-- `waiting_queue.push` of the previous thread starts. -/
theorem handler_push (hs : LockInv s) {r t : Nat}
    (hh : s.handler c = [.push r, .lock (.release .sched), .switchTo t])
    (hctx : s.context c = some r) (calls : List HeapCall) :
    LockInv { s with
      handler := Function.update s.handler c ((heapOps calls).map .lock ++
        .store r :: [.lock (.release .sched), .switchTo t]) } := by
  have hkeep : ∀ u, s.context c = some u → s.At c u := by
    intro u hu
    refine .inl ⟨.inr ⟨.push r, ?_, rfl⟩, hu⟩
    simp [hh]
  have hat : ∀ u, OnCore (s.context c) ((heapOps calls).map .lock ++
      .store r :: [.lock (.release .sched), .switchTo t]) u → s.At c u := by
    intro u hu
    rcases hu with ⟨_, hu⟩ | hu
    · exact hkeep u hu
    · have hut : u = t := by simpa using hu
      exact .inr (by rw [hut, hh]; simp)
  apply hs.of_local c rfl (Function.update_self ..)
  · intro d hd
    exact ⟨Function.update_of_ne hd _ _, rfl, rfl⟩
  · exact Shape.pushing (heapOps_isHeap calls) (.inr ⟨r, hctx, .inr rfl⟩)
  · intro u hu
    rcases hu with hu | hu <;> simp at hu
  · intro u _ hu hmem
    have hut : u = t := by simpa using hmem
    refine hs.distinct c u (.inr ⟨.push r, by simp [hh], rfl⟩) hu ?_
    rw [hut, hh]
    simp
  · exact fun u hu => .inl (hat u hu)
  · exact fun u hu => ⟨.inl hu, fun h => hs.waiting c u (hat u h) hu⟩
  · exact hs.nodup
  · intro l u hown
    rcases hs.owner l u hown with ⟨hq, hsafe⟩
    refine ⟨hq, ?_, fun d _ => hsafe d⟩
    intro hu
    have hold := hsafe c (hat u hu)
    rw [hh] at hold
    exact absurd hold (not_safeOver rfl)

/-- The previous thread is stored in the queue. -/
theorem handler_store (hs : LockInv s) {r t : Nat}
    (hh : s.handler c = [.store r, .lock (.release .sched), .switchTo t])
    (hctx : s.context c = some r) :
    LockInv { s with
      waitingQueue := s.waitingQueue ++ [r]
      handler := Function.update s.handler c
        [.lock (.release .sched), .switchTo t] } := by
  have hkeeps : Keeps (s.handler c) := .inr ⟨.store r, by simp [hh], rfl⟩
  have hr : s.At c r := .inl ⟨hkeeps, hctx⟩
  have ht : s.At c t := .inr (by simp [hh])
  have hrt : r ≠ t := by
    intro heq
    apply hs.distinct c r hkeeps hctx
    rw [heq, hh]
    simp
  have hlate : ¬Keeps [.lock (.release .sched), .switchTo t] := by
    simp [Keeps, HandlerOp.isTail]
  have hat : ∀ u, OnCore (s.context c) [.lock (.release .sched), .switchTo t] u →
      u = t := by
    intro u hu
    rcases hu with ⟨hk, _⟩ | hu
    · exact absurd hk hlate
    · simpa using hu
  apply hs.of_local c rfl (Function.update_self ..)
  · intro d hd
    exact ⟨Function.update_of_ne hd _ _, rfl, rfl⟩
  · exact Shape.tail
  · intro u hu
    rcases hu with hu | hu <;> simp at hu
  · exact fun u hk => absurd hk hlate
  · intro u hu
    rw [hat u hu]
    exact .inl ht
  · intro u hu
    rcases List.mem_append.mp hu with hu | hu
    · refine ⟨.inl hu, ?_⟩
      intro h
      rw [hat u h] at hu
      exact hs.waiting c t ht hu
    · rw [List.mem_singleton.mp hu]
      exact ⟨.inr (.inl hr), fun h => hrt (hat r h)⟩
  · show (s.waitingQueue ++ [r]).Nodup
    rw [List.nodup_append_comm, List.singleton_append, List.nodup_cons]
    exact ⟨hs.waiting c r hr, hs.nodup⟩
  · intro l u hown
    rcases hs.owner l u hown with ⟨hq, hsafe⟩
    have hnot : ∀ v, s.At c v → v ≠ u := by
      intro v hv heq
      rw [heq] at hv
      have hold := hsafe c hv
      rw [hh] at hold
      exact not_safeOver rfl hold
    refine ⟨?_, ?_, fun d _ => hsafe d⟩
    · intro hu
      rcases List.mem_append.mp hu with hu | hu
      · exact hq hu
      · exact hnot r hr (List.mem_singleton.mp hu).symm
    · intro hu
      exact absurd (hat u hu).symm (hnot t ht)

/-- The core switches. -/
theorem handler_switch (hs : LockInv s) {t : Nat} (hh : s.handler c = [.switchTo t]) :
    LockInv { s with
      running := Function.update s.running c (some t)
      context := Function.update s.context c (some t)
      handler := Function.update s.handler c [] } := by
  have ht : s.At c t := .inr (by simp [hh])
  have hat : ∀ u, OnCore (some t) [] u → u = t := by
    intro u hu
    exact (Option.some.inj (onCore_nil.mp hu)).symm
  apply hs.of_local c (Function.update_self ..) (Function.update_self ..)
  · intro d hd
    exact ⟨Function.update_of_ne hd _ _, Function.update_of_ne hd _ _,
      Function.update_of_ne hd _ _⟩
  · exact .outside
  · intro u _ hu
    simpa using hu
  · exact fun u _ _ => List.not_mem_nil
  · intro u hu
    rw [hat u hu]
    exact .inl ht
  · intro u hu
    refine ⟨.inl hu, ?_⟩
    intro h
    rw [hat u h] at hu
    exact hs.waiting c t ht hu
  · exact hs.nodup
  · intro l u hown
    rcases hs.owner l u hown with ⟨hq, hsafe⟩
    exact ⟨hq, fun _ => safeOver_nil l, fun d _ => hsafe d⟩

/-- The previous thread, if the core has one, is its context. -/
theorem pick (hs : LockInv s) (hh : s.handler c = [.pick])
    (hquiet : s.waitingQueue ≠ [] → ¬s.Holds c .heap) {queue : List Nat}
    {ops : List HandlerOp} (hpick : pickOps s c = some (queue, ops)) :
    LockInv { s with
      waitingQueue := queue, handler := Function.update s.handler c ops } := by
  have hctx : ∀ r, s.running c = some r → s.context c = some r := by
    intro r hr
    exact hs.current c r (.inr (by simp [hh])) hr
  unfold pickOps at hpick
  cases hq : s.waitingQueue with
  | nil =>
      cases hr : s.running c with
      | none => simp [hq, hr] at hpick
      | some r =>
          simp only [hq, hr] at hpick
          cases hpick
          exact hs.pick_nil hh (hctx r hr)
  | cons t rest =>
      have hquiet' : ¬s.Holds c .heap := hquiet (by simp [hq])
      cases hr : s.running c with
      | none =>
          simp only [hq, hr, List.append_nil] at hpick
          cases hpick
          exact hs.pick_cons hh hquiet' hq (.inl rfl) _
      | some r =>
          simp only [hq, hr] at hpick
          split at hpick
          · simp only [List.append_nil] at hpick
            cases hpick
            exact hs.pick_cons hh hquiet' hq (.inl rfl) _
          · simp only [List.append_assoc] at hpick
            cases hpick
            exact hs.pick_cons hh hquiet' hq (.inr ⟨r, hctx r hr, .inl rfl⟩) _

omit [DecidableEq κ] in
/-- The handler's lock operations make no thread an owner. -/
theorem owner_of_handler {owner : LockName → Option (Owner κ)} {op : LockOp}
    (hexec : op.exec s.owner (.handler c) found = some owner) :
    ∀ l t, owner l = some (.thread t) → s.owner l = some (.thread t) := by
  intro l t hown
  rcases owner_of_exec hexec hown with hold | hnew
  · exact hold
  · cases hnew

/-- Every step of the handler. -/
theorem handle (hs : LockInv s)
    (hquiet : ¬((s.handler c).head? = some .pick ∧ s.waitingQueue ≠ [] ∧ s.Holds c .heap))
    (hstep : s.stepHandler c found (s.handler c) = some s') : LockInv s' := by
  have hlock : ∀ {op h'}, s.handler c = .lock op :: h' → h' ≠ [] →
      Shape (s.context c) h' → LockInv s' := by
    intro op h' hh hne hshape
    rw [hh] at hstep
    simp only [LockState.stepHandler, Option.bind_eq_bind,
      Option.bind_eq_some_iff] at hstep
    rcases hstep with ⟨owner, hexec, hret⟩
    cases hret
    exact hs.handler_lock hh hne hshape (owner_of_handler hexec)
  have hshape := hs.shape c
  generalize hh : s.handler c = h at hshape
  cases hshape with
  | outside =>
      rw [hh] at hstep
      cases hstep
  | start => exact hlock hh (by simp) .picking
  | picking =>
      rw [hh] at hstep hquiet
      simp only [LockState.stepHandler, Option.bind_eq_bind,
        Option.bind_eq_some_iff] at hstep
      rcases hstep with ⟨⟨queue, ops⟩, hpick, hret⟩
      cases hret
      exact hs.pick hh (fun hq hheld => hquiet ⟨rfl, hq, hheld⟩) hpick
  | @pushing pre mid t hpre hmid =>
      cases pre with
      | cons op pre =>
          apply hlock hh (by simp)
          exact .pushing (fun o ho => hpre o (List.mem_cons_of_mem _ ho)) hmid
      | nil =>
          rcases hmid with rfl | ⟨r, hctx, rfl | rfl⟩
          · exact hlock hh (by simp) .switching
          · rw [hh] at hstep
            cases hstep
            exact hs.handler_push hh hctx _
          · rw [hh] at hstep
            cases hstep
            exact hs.handler_store hh hctx
  | switching =>
      rw [hh] at hstep
      cases hstep
      exact hs.handler_switch hh

end LockInv

/-! ## Whole runs -/

variable [DecidableEq κ]

/-- A step that meets the condition. -/
def QuietLockStep (s : LockState κ) (e : LockEvent κ) (s' : LockState κ) : Prop :=
  LockStep s e s' ∧ s.Quiet e

theorem LockInv.lockStep {s s' : LockState κ} {e : LockEvent κ} (hs : LockInv s)
    (hstep : QuietLockStep s e s') : LockInv s' := by
  rcases hstep with ⟨⟨hallowed, hexec⟩, hquiet⟩
  cases e with
  | call c k =>
      simp only [LockState.exec, Option.bind_eq_bind, Option.bind_eq_some_iff] at hexec
      rcases hexec with ⟨t, _, hret⟩
      cases hret
      exact hs.of_step hallowed.1 rfl rfl (fun _ _ h => h) (fun _ _ => rfl) (.inl rfl)
        (fun _ _ h => .inl h) (.inl rfl)
  | step c found =>
      rcases hallowed with ⟨hh, t, hctx, hfresh⟩
      simp only [LockState.exec, hctx, Option.bind_eq_bind, Option.bind_some] at hexec
      exact hs.step hh hctx hfresh hexec
  | tick c =>
      cases hexec
      exact hs.tick hallowed hquiet
  | handle c found => exact hs.handle hquiet hexec

omit [DecidableEq κ] in
/-- With somebody in the queue the handler needs the allocator next. -/
theorem pickOps_cons {s : LockState κ} {c : κ} (hne : s.waitingQueue ≠ []) :
    ∃ queue rest, pickOps s c = some (queue, .lock (.acquire .heap) :: rest) := by
  have hpop : ∀ n, ∃ rest, heapOps (popCalls (n + 1)) = .acquire .heap :: rest := by
    intro n
    cases n with
    | zero => exact ⟨_, rfl⟩
    | succ n =>
        have hcalls : popCalls (n + 1 + 1) = [.new, .delete, .new, .delete] := by
          simp [popCalls, resizeCalls]
        exact ⟨_, by rw [hcalls]; rfl⟩
  cases hq : s.waitingQueue with
  | nil => exact absurd hq hne
  | cons t rest =>
      rcases hpop rest.length with ⟨ops, hops⟩
      unfold pickOps
      simp only [hq, hops, List.map_cons, List.cons_append]
      exact ⟨_, _, rfl⟩

/-- A step that breaks the condition leaves a core waiting for itself. -/
theorem stuck_of_not_quiet {s s' : LockState κ} {e : LockEvent κ}
    (hstep : LockStep s e s') (hquiet : ¬s.Quiet e) : s'.Stuck := by
  rcases hstep with ⟨hallowed, hexec⟩
  cases e with
  | call c k => exact absurd trivial hquiet
  | step c found => exact absurd trivial hquiet
  | tick c =>
      cases hexec
      refine ⟨c, .sched, [.pick], Function.update_self .., ?_⟩
      exact Classical.not_not.mp hquiet
  | handle c found =>
      rcases Classical.not_not.mp hquiet with ⟨hhead, hne, hheld⟩
      rcases List.head?_eq_some_iff.mp hhead with ⟨h', hh⟩
      rcases pickOps_cons (c := c) hne with ⟨queue, rest, hpick⟩
      simp only [LockState.exec, hh, LockState.stepHandler, hpick, Option.bind_eq_bind,
        Option.bind_some] at hexec
      cases hexec
      exact ⟨c, .heap, rest, Function.update_self .., hheld⟩

/-- No core waits for itself in any run whose steps meet the condition, and a
step that does not meet it leads to such a wait at once. -/
theorem no_self_deadlock {s₀ s : LockState κ} (hinit : s₀.Initial)
    {es : List (LockEvent κ)} (hrun : Run QuietLockStep s₀ es s) :
    ¬s.Stuck ∧ ∀ e s', LockStep s e s' → (s'.Stuck ↔ ¬s.Quiet e) := by
  have hs : LockInv s :=
    hrun.invariant (fun hs hstep => hs.lockStep hstep) (lockInv_of_initial hinit)
  refine ⟨hs.not_stuck, ?_⟩
  intro e s' hstep
  constructor
  · intro hstuck hquiet
    exact (hs.lockStep ⟨hstep, hquiet⟩).not_stuck hstuck
  · exact stuck_of_not_quiet hstep

/-- One core running thread 0, with thread 1 waiting. -/
def twoThreads : LockState Unit :=
  ⟨fun _ => none, [1], fun _ => some 0, fun _ => some 0, fun _ => [], fun _ => []⟩

theorem twoThreads_initial : twoThreads.Initial := by
  constructor <;> simp [twoThreads]

/-- A tick in user mode, up to the point where the handler holds `sched_lock`. -/
theorem no_self_deadlock_tick :
    ∃ s, s.handler () = [.pick] ∧ ¬s.Stuck ∧
      ∀ e s', LockStep s e s' → (s'.Stuck ↔ ¬s.Quiet e) := by
  have hrun : ∃ s, Run QuietLockStep twoThreads [.tick (), .handle () true] s ∧
      s.handler () = [.pick] := by
    refine ⟨_, .cons ⟨⟨rfl, rfl⟩, ?_⟩ (.cons ⟨⟨?_, rfl⟩, ?_⟩ (.nil _)), rfl⟩
    · intro h
      rcases h with ⟨t, _, hown⟩
      cases hown
    · exact List.cons_ne_nil _ _
    · intro h
      cases h.1
  rcases hrun with ⟨s, hrun, hpick⟩
  exact ⟨s, hpick, no_self_deadlock twoThreads_initial hrun⟩

/-- A tick inside `Sched::queue`, right after `sched_lock` was taken: the handler
waits for the lock of the call it interrupted. -/
theorem tick_inside_queue_deadlocks :
    ∃ s, Run LockStep twoThreads
        [.call () (.queue 2), .step () true, .tick ()] s ∧ s.Stuck := by
  refine ⟨_, .cons ⟨⟨rfl, 0, rfl, rfl⟩, rfl⟩
    (.cons ⟨⟨rfl, 0, rfl, ?_⟩, rfl⟩ (.cons ⟨rfl, rfl⟩ (.nil _))),
    (), .sched, [.pick], rfl, 0, rfl, rfl⟩
  intro u rest hcode
  cases hcode

end Toystar.Scheduler
