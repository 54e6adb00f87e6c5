import Toystar.Memory.PmmRun
import Toystar.Verified.Locked

/-!
# The frame allocator on many cores

`PMM::alloc` and `PMM::free` one access at a time: each look at a bit, each
change of a bit and each byte that is zeroed is a move of its own, and the
moves of any number of callers interleave.  `pmm_lock` makes the calls whole
again (`pmm_linearizable`).  The bytes of the frames are not under the lock:
their owners write them at any time.  That no allocation zeroes a frame which
somebody owns, and that the frames it returns are zero whatever the owners of
other frames wrote meanwhile, is `cores_never_share`.
-/

namespace Toystar.Memory

open Toystar.Klibc
open Toystar.Verified

/-! ## The code of a call -/

/-- Where a caller is in `PMM::alloc` or `PMM::free`. -/
inductive PmmPc
  /-- before the look at bit `i`, with `currentCount = run` -/
  | scan (count i run : Nat)
  /-- the loop that sets the bits, before bit `c` -/
  | mark (page count c : Nat)
  /-- `memset`, before byte `n` -/
  | zero (page count n : Nat)
  /-- the loop of `PMM::free`, before bit `i` -/
  | clear (i stop : Nat)
  /-- before `Lock::release`; `free` returns nothing, which is 0 here -/
  | done (ret : Nat)
deriving DecidableEq

def pmmEnter : PmmOp → PmmPc
  | .alloc count => .scan count 0 0
  | .free ptr count => .clear (ptr / PAGE_SIZE) (ptr / PAGE_SIZE + count)

/-- One access.  A byte that `memset` writes is no part of the state under the lock. -/
def pmmAccess : PmmPc → Pmm → PmmPc × Pmm
  | .scan count i run, p =>
      if i < p.pages then
        if p.bitmap.isBitSet i then (.scan count (i + 1) 0, p)
        else if run + 1 = count then (.mark (i + 1 - count) count (i + 1 - count), p)
        else (.scan count (i + 1) (run + 1), p)
      else (.done 0, p)
  | .mark page count c, p =>
      if c < page + count then
        (.mark page count (c + 1), { p with bitmap := p.bitmap.setBit c })
      else (.zero page count 0, p)
  | .zero page count n, p =>
      if n < count * PAGE_SIZE then (.zero page count (n + 1), p)
      else (.done (page * PAGE_SIZE), p)
  | .clear i stop, p =>
      if i < stop then (.clear (i + 1) stop, { p with bitmap := p.bitmap.clearBit i })
      else (.done 0, p)
  | .done ret, p => (.done ret, p)

def pmmResult : PmmPc → Option Nat
  | .done ret => some ret
  | _ => none

/-- `PMM::alloc` and `PMM::free` under `pmm_lock`. -/
def pmmCode : Guarded Pmm PmmOp PmmPc Nat := ⟨pmmEnter, pmmAccess, pmmResult⟩

/-! ## How far a call has come -/

namespace Pmm

/-- The page that `alloc` takes. -/
def fit (p : Pmm) (count : Nat) : Option Nat := firstFit p.bitmap.isBitSet count p.pages 0 0

/-- The first `n` frames from `page` on are marked. -/
def marked (p : Pmm) (page n : Nat) : Pmm := { p with bitmap := setBits p.bitmap page n }

/-- The first `n` frames from `page` on are cleared. -/
def cleared (p : Pmm) (page n : Nat) : Pmm := { p with bitmap := clearBits p.bitmap page n }

variable {p : Pmm} {page n : Nat}

theorem setBits_succ (bitmap : Bitmap) (page n : Nat) :
    setBits bitmap page (n + 1) = (setBits bitmap page n).setBit (page + n) := by
  induction n generalizing bitmap page with
  | zero => rfl
  | succ n ih =>
      rw [setBits, ih, setBits]
      congr 1
      omega

theorem clearBits_succ (bitmap : Bitmap) (page n : Nat) :
    clearBits bitmap page (n + 1) = (clearBits bitmap page n).clearBit (page + n) := by
  induction n generalizing bitmap page with
  | zero => rfl
  | succ n ih =>
      rw [clearBits, ih, clearBits]
      congr 1
      omega

theorem marked_succ :
    { p.marked page n with bitmap := (p.marked page n).bitmap.setBit (page + n) } =
      p.marked page (n + 1) := by
  unfold marked
  rw [setBits_succ]

theorem cleared_succ :
    { p.cleared page n with bitmap := (p.cleared page n).bitmap.clearBit (page + n) } =
    p.cleared page (n + 1) := by
  unfold cleared
  rw [clearBits_succ]

end Pmm

/-- Where a call that started from `p` can be, and what it has made of `p`. -/
inductive Spot (p : Pmm) : PmmOp → PmmPc → Pmm → Prop
  | scan {count i run : Nat} (hi : i ≤ p.pages)
      (hfit : firstFit p.bitmap.isBitSet count (p.pages - i) i run = p.fit count) :
      Spot p (.alloc count) (.scan count i run) p
  | mark {count page n : Nat} (hn : n ≤ count) (hfit : p.fit count = some page) :
      Spot p (.alloc count) (.mark page count (page + n)) (p.marked page n)
  | zero {count page n : Nat} (hn : n ≤ count * PAGE_SIZE) (hfit : p.fit count = some page) :
      Spot p (.alloc count) (.zero page count n) (p.marked page count)
  | null {count : Nat} (hfit : p.fit count = none) : Spot p (.alloc count) (.done 0) p
  | found {count page : Nat} (hfit : p.fit count = some page) :
      Spot p (.alloc count) (.done (page * PAGE_SIZE)) (p.marked page count)
  | clear {ptr count n : Nat} (hn : n ≤ count) :
      Spot p (.free ptr count) (.clear (ptr / PAGE_SIZE + n) (ptr / PAGE_SIZE + count))
        (p.cleared (ptr / PAGE_SIZE) n)
  | freed {ptr count : Nat} : Spot p (.free ptr count) (.done 0) (p.free ptr count)

namespace Spot

variable {p p' : Pmm} {op : PmmOp} {pc : PmmPc} {ret : Nat}

theorem enter (p : Pmm) (op : PmmOp) : Spot p op (pmmEnter op) p := by
  cases op with
  | alloc count => exact .scan (Nat.zero_le _) rfl
  | free ptr count => exact .clear (n := 0) (Nat.zero_le count)

theorem scanned {count i run : Nat} (hi : i ≤ p.pages)
    (hfit : firstFit p.bitmap.isBitSet count (p.pages - i) i run = p.fit count) :
    Spot p (.alloc count) (pmmAccess (.scan count i run) p).1
      (pmmAccess (.scan count i run) p).2 := by
  rw [pmmAccess]
  by_cases hlt : i < p.pages
  · have hrest : p.pages - i = p.pages - (i + 1) + 1 := by omega
    rw [hrest, firstFit] at hfit
    rw [if_pos hlt]
    by_cases hused : p.bitmap.isBitSet i = true
    · rw [if_pos hused] at hfit ⊢
      exact .scan hlt hfit
    · rw [if_neg hused] at hfit ⊢
      by_cases hdone : run + 1 = count
      · rw [if_pos hdone] at hfit ⊢
        exact .mark (n := 0) (Nat.zero_le count) hfit.symm
      · rw [if_neg hdone] at hfit ⊢
        exact .scan hlt hfit
  · have hrest : p.pages - i = 0 := by omega
    rw [hrest, firstFit] at hfit
    rw [if_neg hlt]
    exact .null hfit.symm

/-- One access goes on to the next spot. -/
theorem access (h : Spot p op pc p') :
    Spot p op (pmmAccess pc p').1 (pmmAccess pc p').2 := by
  cases h with
  | scan hi hfit => exact scanned hi hfit
  | @mark count page n hn hfit =>
      rw [pmmAccess]
      by_cases hlt : page + n < page + count
      · rw [if_pos hlt, Pmm.marked_succ]
        exact .mark (n := n + 1) (by omega) hfit
      · obtain rfl : n = count := by omega
        rw [if_neg hlt]
        exact .zero (Nat.zero_le _) hfit
  | @zero count page n hn hfit =>
      rw [pmmAccess]
      by_cases hlt : n < count * PAGE_SIZE
      · rw [if_pos hlt]
        exact .zero hlt hfit
      · rw [if_neg hlt]
        exact .found hfit
  | null hfit => exact .null hfit
  | found hfit => exact .found hfit
  | @clear ptr count n hn =>
      rw [pmmAccess]
      by_cases hlt : ptr / PAGE_SIZE + n < ptr / PAGE_SIZE + count
      · rw [if_pos hlt, Pmm.cleared_succ]
        exact .clear (n := n + 1) (by omega)
      · obtain rfl : n = count := by omega
        rw [if_neg hlt]
        exact .freed
  | freed => exact .freed

theorem of_reaches (h : pmmCode.Reaches (pmmCode.enter op, p) (pc, p')) : Spot p op pc p' :=
  h.invariant (I := fun a => Spot p op a.1 a.2)
    (fun ha hnext => by rw [← hnext.2]; exact ha.access) (enter p op)

/-- What has been returned is what the whole call returns. -/
theorem alloc_eq {count : Nat} (h : Spot p (.alloc count) (.done ret) p') (mem : ByteMem) :
    (p.alloc mem count).1 = ret ∧ (p.alloc mem count).2.1 = p' := by
  unfold Pmm.alloc
  cases h with
  | null hfit =>
      rw [Pmm.fit] at hfit
      rw [hfit]
      exact ⟨rfl, rfl⟩
  | found hfit =>
      rw [Pmm.fit] at hfit
      rw [hfit]
      exact ⟨rfl, rfl⟩

theorem free_eq {ptr count : Nat} (h : Spot p (.free ptr count) pc p')
    (hres : pmmResult pc = some ret) : ret = 0 ∧ p.free ptr count = p' := by
  cases h with
  | clear hn => cases hres
  | freed => exact ⟨(Option.some.inj hres).symm, rfl⟩

end Spot

/-- A bound on the accesses that are left. -/
def PmmPc.left (pages : Nat) : PmmPc → Nat
  | .scan count i _ => (pages - i) + count + count * PAGE_SIZE + 4
  | .mark page count c => (page + count - c) + count * PAGE_SIZE + 3
  | .zero _ count n => count * PAGE_SIZE - n + 1
  | .clear i stop => stop - i + 1
  | .done _ => 0

theorem left_access {pc : PmmPc} (hres : pmmResult pc = none) (p : Pmm) :
    (pmmAccess pc p).1.left (pmmAccess pc p).2.pages < pc.left p.pages := by
  cases pc with
  | scan count i run =>
      rw [pmmAccess]
      split
      · split
        · show (p.pages - (i + 1)) + _ + _ + _ < _
          simp only [PmmPc.left]
          omega
        · split
          · simp only [PmmPc.left]
            omega
          · simp only [PmmPc.left]
            omega
      · simp only [PmmPc.left]
        omega
  | mark page count c =>
      rw [pmmAccess]
      split
      · simp only [PmmPc.left]
        omega
      · simp only [PmmPc.left]
        omega
  | zero page count n =>
      rw [pmmAccess]
      split
      · simp only [PmmPc.left]
        omega
      · simp only [PmmPc.left]
        omega
  | clear i stop =>
      rw [pmmAccess]
      split
      · simp only [PmmPc.left]
        omega
      · simp only [PmmPc.left]
        omega
  | done ret => cases hres

/-- A call that nobody disturbs ends. -/
theorem reaches_done (pc : PmmPc) (p : Pmm) :
    ∃ ret p', pmmCode.Reaches (pc, p) (.done ret, p') := by
  induction hleft : pc.left p.pages using Nat.strongRecOn generalizing pc p with
  | ind n ih =>
      cases hres : pmmResult pc with
      | none =>
          have hlt := left_access hres p
          rw [hleft] at hlt
          obtain ⟨ret, p', hrest⟩ := ih _ hlt _ _ rfl
          exact ⟨ret, p', Relation.ReflTransGen.head ⟨hres, rfl⟩ hrest⟩
      | some ret =>
          cases pc with
          | done ret' => exact ⟨ret', p, Relation.ReflTransGen.refl⟩
          | _ => cases hres

/-! ## Whole calls -/

variable {ι : Type}

/-- A whole call: what it returns and what it makes of the allocator. -/
def PmmOp.Does (p : Pmm) (e : ι × PmmOp × Nat) (p' : Pmm) : Prop :=
  match e.2.1 with
  | .alloc count => ∀ mem, (p.alloc mem count).1 = e.2.2 ∧ (p.alloc mem count).2.1 = p'
  | .free ptr count => e.2.2 = 0 ∧ p.free ptr count = p'

theorem does_of_atomic {p p' : Pmm} {e : ι × PmmOp × Nat} (h : pmmCode.Atomic p e p') :
    PmmOp.Does p e p' := by
  obtain ⟨pc, hreach, hret⟩ := h
  have hspot := Spot.of_reaches hreach
  obtain ⟨i, op, ret⟩ := e
  cases pc with
  | done ret' =>
      obtain rfl : ret' = ret := Option.some.inj hret
      cases op with
      | alloc count => exact hspot.alloc_eq
      | free ptr count => exact hspot.free_eq rfl
  | _ => cases hret

/-- Any number of callers, any order of their accesses: the calls that have returned are
whole calls of `PMM::alloc` and `PMM::free`, one after the other in the order of their
releases, each with the result it has on its own; while the lock is free the bitmap is
what they left; at most one caller is inside; and each that waits can return. -/
theorem pmm_linearizable [DecidableEq ι] (p₀ : Pmm) {es : List (CoreMove ι PmmOp)}
    {t : Cores ι Pmm PmmOp PmmPc Nat} (hrun : Run pmmCode.Step (.idle p₀) es t) :
    (∃ p, Run PmmOp.Does p₀ t.history p ∧ (t.lock = false → t.shared = p)) ∧
    (∀ i j op pc op' pc', t.phase i = .inside op pc → t.phase j = .inside op' pc' → i = j) ∧
    ∀ i op, t.phase i = .waiting op → ∃ es' t' ret, Run pmmCode.Step t es' t' ∧
      t'.phase i = .outside ∧ t'.history.getLast? = some (i, op, ret) := by
  obtain ⟨p, hdone, h⟩ := Guarded.linearizable hrun
  refine ⟨⟨p, hdone.mono does_of_atomic, h.shared_eq⟩, fun i j op pc op' pc' => h.alone, ?_⟩
  intro i op hi
  refine Guarded.exists_return ?_ h hi
  intro op p
  obtain ⟨ret, p', hreach⟩ := reaches_done (pmmEnter op) p
  exact ⟨ret, p', .done ret, hreach, rfl⟩

/-- Of sixteen pages two are in use.  One core frees page 1; between its call and its
turn the other looks for twenty pages in a row, and finds none. -/
theorem pmm_linearizable_two : ∃ t : Cores Bool Pmm PmmOp PmmPc Nat,
    t.history = [(true, .alloc 20, 0), (false, .free 0x1000 1, 0)] ∧
    ∃ p, Run PmmOp.Does ⟨fun i => if i = 0 then 0xC0 else 0, 2, by decide⟩ t.history p ∧
      (t.lock = false → t.shared = p) := by
  have hend : (([.call false (.free 0x1000 1), .call true (.alloc 20), .acquire true] ++
      List.replicate 17 (.step true) ++ [.release true, .acquire false, .step false,
        .step false, .release false] : List (CoreMove Bool PmmOp)).foldlM pmmCode.next
      (.idle ⟨fun i => if i = 0 then 0xC0 else 0, 2, by decide⟩)).map (·.history) =
      some [(true, .alloc 20, 0), (false, .free 0x1000 1, 0)] := by decide +kernel
  obtain ⟨t, ht, hhistory⟩ := Option.map_eq_some_iff.mp hend
  exact ⟨t, hhistory, (pmm_linearizable _ (Run.of_foldlM id ht)).1⟩

/-! ## Who owns which frames -/

/-- The callers, memory, and whose the frames are: allocations that were returned and
not passed to `free`, and those passed to a `free` that has not returned. -/
structure FrameCores (ι : Type) where
  cores : Cores ι Pmm PmmOp PmmPc Nat
  mem : ByteMem
  owned : List Frames
  freeing : List (ι × Frames)

/-- A move of a caller, or an owner writes a byte of its frames. -/
inductive FrameMove (ι : Type)
  | core (e : CoreMove ι PmmOp)
  | write (x : Nat) (v : UInt8)
deriving DecidableEq

variable [DecidableEq ι]

namespace FrameCores

/-- Nothing is allocated yet. -/
def boot (p₀ : Pmm) (mem : ByteMem) : FrameCores ι := ⟨.idle p₀, mem, [], []⟩

/-- `alloc` asks for at least one frame, `free` gives back what somebody owns, and owners
write to their own frames. -/
def Allowed (s : FrameCores ι) : FrameMove ι → Prop
  | .core (.call _ (.alloc count)) => 1 ≤ count
  | .core (.call _ (.free ptr count)) => ⟨ptr, count⟩ ∈ s.owned
  | .core _ => True
  | .write x _ => ∃ f ∈ s.owned, f.Has (x / PAGE_SIZE)

/-- The byte that `memset` writes with a caller's next access. -/
def zeroes : Phase PmmOp PmmPc → Option Nat
  | .inside _ (.zero page count n) =>
      if n < count * PAGE_SIZE then some (page * PAGE_SIZE + n) else none
  | _ => none

/-- What becomes of memory and of the frames with a move of a caller. -/
def after (s : FrameCores ι) (e : CoreMove ι PmmOp) (cores : Cores ι Pmm PmmOp PmmPc Nat) :
    FrameCores ι :=
  match e with
  | .call i (.free ptr count) =>
      ⟨cores, s.mem, s.owned.erase ⟨ptr, count⟩, (i, ⟨ptr, count⟩) :: s.freeing⟩
  | .step i =>
      { s with
        cores := cores
        mem := (zeroes (s.cores.phase i)).elim s.mem fun x => Function.update s.mem x 0 }
  | .release i =>
      match s.cores.phase i with
      | .inside (.alloc count) (.done ptr) =>
          { s with
            cores := cores
            owned := if ptr = 0 then s.owned else ⟨ptr, count⟩ :: s.owned }
      | .inside (.free ptr count) _ =>
          { s with cores := cores, freeing := s.freeing.erase (i, ⟨ptr, count⟩) }
      | _ => { s with cores := cores }
  | _ => { s with cores := cores }

def next (s : FrameCores ι) : FrameMove ι → Option (FrameCores ι)
  | .core e => (pmmCode.next s.cores e).map (s.after e)
  | .write x v => some { s with mem := Function.update s.mem x v }

instance decidableAllowed (s : FrameCores ι) (e : FrameMove ι) : Decidable (s.Allowed e) :=
  match e with
  | .core (.call _ (.alloc count)) => inferInstanceAs (Decidable (1 ≤ count))
  | .core (.call _ (.free ptr count)) => inferInstanceAs (Decidable (⟨ptr, count⟩ ∈ s.owned))
  | .core (.acquire _) => inferInstanceAs (Decidable True)
  | .core (.step _) => inferInstanceAs (Decidable True)
  | .core (.release _) => inferInstanceAs (Decidable True)
  | .write x _ => inferInstanceAs (Decidable (∃ f ∈ s.owned,
      f.ptr / PAGE_SIZE ≤ x / PAGE_SIZE ∧ x / PAGE_SIZE < f.ptr / PAGE_SIZE + f.count))

/-- All allocations that have not been given back. -/
def live (s : FrameCores ι) : List Frames := s.owned ++ s.freeing.map (·.2)

end FrameCores

def FrameStep (s : FrameCores ι) (e : FrameMove ι) (s' : FrameCores ι) : Prop :=
  s.Allowed e ∧ s.next e = some s'

/-- The step as a function. -/
def FrameCores.attempt (s : FrameCores ι) (e : FrameMove ι) : Option (FrameCores ι) :=
  if s.Allowed e then s.next e else none

theorem frameStep_of_attempt {s s' : FrameCores ι} {e : FrameMove ι}
    (h : s.attempt e = some s') : FrameStep s e s' := by
  unfold FrameCores.attempt at h
  split at h
  · rename_i hallowed
    exact ⟨hallowed, h⟩
  · cases h

/-! ## The invariant -/

/-- What a call has zeroed so far. -/
def Zeroed (mem : ByteMem) : PmmOp → PmmPc → Prop
  | .alloc _, .zero page _ n =>
      ∀ x, page * PAGE_SIZE ≤ x → x < page * PAGE_SIZE + n → mem x = 0
  | .alloc count, .done ptr =>
      ptr ≠ 0 → ∀ x, ptr ≤ x → x < ptr + count * PAGE_SIZE → mem x = 0
  | _, _ => True

/-- The calls that have returned made `p`, whose used pages are those of the start and
the live allocations, no two of which meet. -/
structure Shares (p₀ : Pmm) (s : FrameCores ι) (p : Pmm) : Prop where
  linked : pmmCode.Linked s.cores p
  tracks : Tracks p₀ ⟨p, s.mem, s.live⟩
  freeing : ∀ i ptr count, (s.cores.phase i).call? = some (.free ptr count) →
    (i, ⟨ptr, count⟩) ∈ s.freeing
  positive : ∀ i count, (s.cores.phase i).call? = some (.alloc count) → 1 ≤ count
  zeroed : ∀ i op pc, s.cores.phase i = .inside op pc → Zeroed s.mem op pc

/-- Pages that `alloc` finds are free. -/
theorem Pmm.fit_spec {p : Pmm} {count page : Nat} (hcount : 1 ≤ count)
    (h : p.fit count = some page) :
    page + count ≤ p.pages ∧ FreeRange p.bitmap.isBitSet page count := by
  have hfound := firstFit_eq_some (le_refl 0) (by omega) (fun j _ hj => by omega) h
  exact ⟨by omega, hfound.2.2.1⟩

namespace Shares

variable {p₀ p : Pmm} {s s' : FrameCores ι} {i : ι} {op : PmmOp} {pc : PmmPc}
  {count page : Nat} {f : Frames} {mem : ByteMem}

omit [DecidableEq ι] in
theorem boot (p₀ : Pmm) (mem : ByteMem) : Shares p₀ (.boot p₀ mem : FrameCores ι) p₀ :=
  { linked := Guarded.linked_idle p₀
    tracks := tracks_init p₀ mem
    freeing := fun _ _ _ h => by cases h
    positive := fun _ _ h => by cases h
    zeroed := fun _ _ _ h => by cases h }

omit [DecidableEq ι] in
theorem spot (h : Shares p₀ s p) (hi : s.cores.phase i = .inside op pc) :
    Spot p op pc s.cores.shared :=
  Spot.of_reaches (h.linked.reaches hi)

omit [DecidableEq ι] in
/-- The frames that a call is about to return are nobody's. -/
theorem apart_of_fit (h : Shares p₀ s p) (hi : s.cores.phase i = .inside (.alloc count) pc)
    (hfit : p.fit count = some page) (hf : f ∈ s.live) {j : Nat} (hj : f.Has j) :
    ¬(page ≤ j ∧ j < page + count) := by
  intro hin
  have hcount := h.positive i count (by rw [hi]; rfl)
  have hfree := (Pmm.fit_spec hcount hfit).2 j hin.1 hin.2
  exact (h.tracks.of_free hfree).2 f hf hj

/-- A byte written elsewhere leaves what was zeroed zero. -/
theorem zeroed_update {p' : Pmm} (hspot : Spot p op pc p') (hz : Zeroed mem op pc) {x : Nat}
    (hx : ∀ count page, op = .alloc count → p.fit count = some page →
      ¬(page ≤ x / PAGE_SIZE ∧ x / PAGE_SIZE < page + count)) (v : UInt8) :
    Zeroed (Function.update mem x v) op pc := by
  cases hspot with
  | @zero count page n hn hfit =>
      intro y hlo hhi
      have hne : y ≠ x := by
        intro hyx
        apply hx count page rfl hfit
        unfold PAGE_SIZE at *
        omega
      rw [Function.update_of_ne hne]
      exact hz y hlo hhi
  | @found count page hfit =>
      intro hpage y hlo hhi
      have hne : y ≠ x := by
        intro hyx
        apply hx count page rfl hfit
        unfold PAGE_SIZE at *
        omega
      rw [Function.update_of_ne hne]
      exact hz hpage y hlo hhi
  | null hfit => exact fun hne => absurd rfl hne
  | scan _ _ => trivial
  | mark _ _ => trivial
  | clear _ => trivial
  | freed => trivial

/-- One access zeroes one byte more. -/
theorem zeroed_access {p' : Pmm} (hspot : Spot p op pc p') (hz : Zeroed mem op pc)
    (hres : pmmResult pc = none) :
    Zeroed ((FrameCores.zeroes (.inside op pc)).elim mem fun x => Function.update mem x 0) op
      (pmmAccess pc p').1 := by
  cases hspot with
  | @scan count i run hi hfit =>
      rw [pmmAccess]
      split
      · split
        · trivial
        · split
          · trivial
          · trivial
      · exact fun hne => absurd rfl hne
  | @mark count page n hn hfit =>
      rw [pmmAccess]
      split
      · trivial
      · intro x hlo hhi
        omega
  | @zero count page n hn hfit =>
      rw [pmmAccess, FrameCores.zeroes]
      by_cases hlt : n < count * PAGE_SIZE
      · rw [if_pos hlt, if_pos hlt, Option.elim_some]
        intro x hlo hhi
        by_cases hx : x = page * PAGE_SIZE + n
        · rw [hx, Function.update_self]
        · rw [Function.update_of_ne hx]
          exact hz x hlo (by omega)
      · rw [if_neg hlt, if_neg hlt, Option.elim_none]
        intro _ x hlo hhi
        exact hz x hlo (by omega)
  | null hfit => cases hres
  | found hfit => cases hres
  | clear hn =>
      rw [pmmAccess]
      split
      · trivial
      · trivial
  | freed => cases hres

/-! ### One move -/

variable {t : Cores ι Pmm PmmOp PmmPc Nat} {e : CoreMove ι PmmOp}

/-- Calls that a move does not start or end. -/
theorem freeing_of_calls (h : Shares p₀ s p) (hstep : pmmCode.Step s.cores e t)
    (hcalls : ∀ c : ι → Option PmmOp, e.calls c = c) (j : ι) (ptr count : Nat)
    (hj : (t.phase j).call? = some (.free ptr count)) : (j, ⟨ptr, count⟩) ∈ s.freeing := by
  rw [Guarded.call?_step hstep, hcalls] at hj
  exact h.freeing j ptr count hj

theorem positive_of_calls (h : Shares p₀ s p) (hstep : pmmCode.Step s.cores e t)
    (hcalls : ∀ c : ι → Option PmmOp, e.calls c = c) (j : ι) (count : Nat)
    (hj : (t.phase j).call? = some (.alloc count)) : 1 ≤ count := by
  rw [Guarded.call?_step hstep, hcalls] at hj
  exact h.positive j count hj

theorem callAlloc (h : Shares p₀ s p) (hcount : 1 ≤ count) (hi : s.cores.phase i = .outside)
    (hstep : pmmCode.Step s.cores (.call i (.alloc count)) { s.cores with
      phase := Function.update s.cores.phase i (.waiting (.alloc count)) }) :
    Shares p₀ { s with cores := { s.cores with
      phase := Function.update s.cores.phase i (.waiting (.alloc count)) } } p := by
  refine
    { linked := h.linked.wait hi _
      tracks := h.tracks
      freeing := fun j ptr n hj => ?_
      positive := fun j n hj => ?_
      zeroed := fun j op pc hj => ?_ }
  · rw [Guarded.call?_step hstep] at hj
    by_cases hji : j = i
    · rw [hji, CoreMove.calls, Function.update_self] at hj
      cases hj
    · rw [CoreMove.calls, Function.update_of_ne hji] at hj
      exact h.freeing j ptr n hj
  · rw [Guarded.call?_step hstep] at hj
    by_cases hji : j = i
    · rw [hji, CoreMove.calls, Function.update_self] at hj
      cases hj
      exact hcount
    · rw [CoreMove.calls, Function.update_of_ne hji] at hj
      exact h.positive j n hj
  · exact h.zeroed j op pc (Guarded.Linked.inside_of_update (fun _ _ hc => by cases hc) hj).2

theorem callFree (h : Shares p₀ s p) (hf : f ∈ s.owned) (hi : s.cores.phase i = .outside)
    (hstep : pmmCode.Step s.cores (.call i (.free f.ptr f.count)) { s.cores with
      phase := Function.update s.cores.phase i (.waiting (.free f.ptr f.count)) }) :
    Shares p₀ ⟨{ s.cores with
      phase := Function.update s.cores.phase i (.waiting (.free f.ptr f.count)) }, s.mem,
      s.owned.erase f, (i, f) :: s.freeing⟩ p := by
  have hperm : (s.owned ++ s.freeing.map (·.2)).Perm
      (s.owned.erase f ++ ((i, f) :: s.freeing).map (·.2)) := by
    rw [List.map_cons]
    exact ((List.perm_cons_erase hf).append_right _).trans List.perm_middle.symm
  refine
    { linked := h.linked.wait hi _
      tracks := h.tracks.congr rfl hperm
      freeing := fun j ptr n hj => ?_
      positive := fun j n hj => ?_
      zeroed := fun j op pc hj => ?_ }
  · rw [Guarded.call?_step hstep] at hj
    by_cases hji : j = i
    · rw [hji, CoreMove.calls, Function.update_self] at hj
      cases hj
      rw [hji]
      exact List.mem_cons_self
    · rw [CoreMove.calls, Function.update_of_ne hji] at hj
      exact List.mem_cons_of_mem _ (h.freeing j ptr n hj)
  · rw [Guarded.call?_step hstep] at hj
    by_cases hji : j = i
    · rw [hji, CoreMove.calls, Function.update_self] at hj
      cases hj
    · rw [CoreMove.calls, Function.update_of_ne hji] at hj
      exact h.positive j n hj
  · exact h.zeroed j op pc (Guarded.Linked.inside_of_update (fun _ _ hc => by cases hc) hj).2

theorem acquire (h : Shares p₀ s p) (hfree : s.cores.lock = false)
    (hstep : pmmCode.Step s.cores (.acquire i) { s.cores with
      lock := true
      phase := Function.update s.cores.phase i (.inside op (pmmCode.enter op)) }) :
    Shares p₀ { s with cores := { s.cores with
      lock := true
      phase := Function.update s.cores.phase i (.inside op (pmmCode.enter op)) } } p := by
  refine
    { linked := h.linked.acquire hfree
      tracks := h.tracks
      freeing := h.freeing_of_calls hstep fun _ => rfl
      positive := h.positive_of_calls hstep fun _ => rfl
      zeroed := fun j op' pc hj => ?_ }
  by_cases hji : j = i
  · rw [hji] at hj
    have heq : Phase.inside op (pmmCode.enter op) = Phase.inside op' pc :=
      (Function.update_self i _ _).symm.trans hj
    cases heq
    cases op with
    | alloc count => trivial
    | free ptr count => trivial
  · have hold : s.cores.phase j = .inside op' pc := (Function.update_of_ne hji _ _).symm.trans hj
    exact h.zeroed j op' pc hold

theorem access (h : Shares p₀ s p) (hi : s.cores.phase i = .inside op pc)
    (hres : pmmResult pc = none)
    (hstep : pmmCode.Step s.cores (.step i) { s.cores with
      shared := (pmmAccess pc s.cores.shared).2
      phase := Function.update s.cores.phase i
        (.inside op (pmmAccess pc s.cores.shared).1) }) :
    Shares p₀ { s with
      cores := { s.cores with
        shared := (pmmAccess pc s.cores.shared).2
        phase := Function.update s.cores.phase i
          (.inside op (pmmAccess pc s.cores.shared).1) }
      mem := (FrameCores.zeroes (.inside op pc)).elim s.mem
        fun x => Function.update s.mem x 0 } p := by
  refine
    { linked := h.linked.access hi hres
      tracks := h.tracks.congr rfl (List.Perm.refl _)
      freeing := h.freeing_of_calls hstep fun _ => rfl
      positive := h.positive_of_calls hstep fun _ => rfl
      zeroed := fun j op' pc' hj => ?_ }
  by_cases hji : j = i
  · rw [hji] at hj
    have heq : Phase.inside op (pmmAccess pc s.cores.shared).1 = Phase.inside op' pc' :=
      (Function.update_self i _ _).symm.trans hj
    cases heq
    exact zeroed_access (h.spot hi) (h.zeroed i op pc hi) hres
  · -- nobody else is inside
    have hold : s.cores.phase j = .inside op' pc' :=
      (Function.update_of_ne hji _ _).symm.trans hj
    exact absurd (h.linked.alone hold hi) hji

/-- The phases after a release. -/
theorem calls_release {j : ι} {op' : PmmOp}
    (hj : (Function.update s.cores.phase i Phase.outside j).call? = some op') :
    j ≠ i ∧ (s.cores.phase j).call? = some op' := by
  by_cases hji : j = i
  · rw [hji, Function.update_self] at hj
    cases hj
  · rw [Function.update_of_ne hji] at hj
    exact ⟨hji, hj⟩

theorem releaseAlloc {ptr : Nat} (hzero : p₀.bitmap.isBitSet 0 = true) (h : Shares p₀ s p)
    (hi : s.cores.phase i = .inside (.alloc count) (.done ptr))
    (history : List (ι × PmmOp × Nat)) :
    Shares p₀ { s with
      cores := { s.cores with
        lock := false
        phase := Function.update s.cores.phase i .outside
        history := history }
      owned := if ptr = 0 then s.owned else ⟨ptr, count⟩ :: s.owned } s.cores.shared := by
  have hcount := h.positive i count (by rw [hi]; rfl)
  have hret := (h.spot hi).alloc_eq s.mem
  have htracks := h.tracks.alloc hzero hcount
  refine
    { linked := h.linked.release hi history
      tracks := htracks.congr ?_ ?_
      freeing := fun j q n hj => h.freeing j q n (calls_release hj).2
      positive := fun j n hj => h.positive j n (calls_release hj).2
      zeroed := fun j op pc hj => ?_ }
  · exact hret.2.symm
  · have hlive : (PmmState.exec ⟨p, s.mem, s.live⟩ (.alloc count)).live =
        if ptr = 0 then s.live else ⟨ptr, count⟩ :: s.live := by
      rw [← hret.1]
      rfl
    rw [hlive]
    unfold FrameCores.live
    by_cases hptr : ptr = 0
    · simp only [if_pos hptr, List.Perm.refl]
    · simp only [if_neg hptr, List.cons_append, List.Perm.refl]
  · exact h.zeroed j op pc (Guarded.Linked.inside_of_update (fun _ _ hc => by cases hc) hj).2

theorem releaseFree {ptr : Nat} (h : Shares p₀ s p)
    (hi : s.cores.phase i = .inside (.free ptr count) pc) {ret : Nat}
    (hres : pmmResult pc = some ret) (history : List (ι × PmmOp × Nat)) :
    Shares p₀ { s with
      cores := { s.cores with
        lock := false
        phase := Function.update s.cores.phase i .outside
        history := history }
      freeing := s.freeing.erase (i, ⟨ptr, count⟩) } s.cores.shared := by
  have hmem := h.freeing i ptr count (by rw [hi]; rfl)
  have hshared : p.free ptr count = s.cores.shared := ((h.spot hi).free_eq hres).2
  have hperm : s.live.Perm
      (⟨ptr, count⟩ :: (s.owned ++ (s.freeing.erase (i, ⟨ptr, count⟩)).map (·.2))) :=
    (((List.perm_cons_erase hmem).map fun x : ι × Frames => x.2).append_left s.owned).trans
      List.perm_middle
  have hlive : (⟨ptr, count⟩ : Frames) ∈ s.live := hperm.mem_iff.mpr List.mem_cons_self
  have htracks := h.tracks.free hlive
  refine
    { linked := h.linked.release hi history
      tracks := htracks.congr hshared.symm ?_
      freeing := fun j q n hj => ?_
      positive := fun j n hj => h.positive j n (calls_release hj).2
      zeroed := fun j op pc hj => ?_ }
  · have herase := hperm.erase ⟨ptr, count⟩
    rw [List.erase_cons_head] at herase
    exact herase
  · have hother := calls_release hj
    refine (List.mem_erase_of_ne ?_).mpr (h.freeing j q n hother.2)
    intro heq
    exact hother.1 (congrArg Prod.fst heq)
  · exact h.zeroed j op pc (Guarded.Linked.inside_of_update (fun _ _ hc => by cases hc) hj).2

omit [DecidableEq ι] in
theorem write (h : Shares p₀ s p) (hf : f ∈ s.owned) {x : Nat} (hx : f.Has (x / PAGE_SIZE))
    (v : UInt8) : Shares p₀ { s with mem := Function.update s.mem x v } p := by
  refine
    { linked := h.linked
      tracks := h.tracks.congr rfl (List.Perm.refl _)
      freeing := h.freeing
      positive := h.positive
      zeroed := fun j op pc hj => ?_ }
  apply zeroed_update (h.spot hj) (h.zeroed j op pc hj)
  intro count page hop hfit
  subst hop
  exact h.apart_of_fit hj hfit (List.mem_append_left _ hf) hx

theorem step {e : FrameMove ι} (hzero : p₀.bitmap.isBitSet 0 = true) (h : Shares p₀ s p)
    (hstep : FrameStep s e s') : ∃ p', Shares p₀ s' p' := by
  obtain ⟨hallowed, hnext⟩ := hstep
  cases e with
  | write x v =>
      obtain ⟨f, hf, hx⟩ := hallowed
      rw [← Option.some.inj hnext]
      exact ⟨p, h.write hf hx v⟩
  | core e =>
      obtain ⟨t, ht, hafter⟩ := Option.map_eq_some_iff.mp hnext
      have hmove : pmmCode.Step s.cores e t := ht
      rw [← hafter]
      rcases Guarded.step_cases hmove with ⟨i, op, rfl, hi, rfl⟩ | ⟨i, op, rfl, _, hfree, rfl⟩ |
        ⟨i, op, pc, rfl, hi, hres, rfl⟩ | ⟨i, op, pc, ret, rfl, hi, hres, rfl⟩
      · cases op with
        | alloc count => exact ⟨p, h.callAlloc hallowed hi hmove⟩
        | free ptr count => exact ⟨p, h.callFree hallowed hi hmove⟩
      · exact ⟨p, h.acquire hfree hmove⟩
      · refine ⟨p, ?_⟩
        simp only [FrameCores.after, hi]
        exact h.access hi hres hmove
      · refine ⟨s.cores.shared, ?_⟩
        cases op with
        | alloc count =>
            cases pc with
            | done ptr =>
                simp only [FrameCores.after, hi]
                exact h.releaseAlloc hzero hi _
            | _ => cases hres
        | free ptr count =>
            simp only [FrameCores.after, hi]
            exact h.releaseFree hi hres _

theorem run {es : List (FrameMove ι)} (hzero : p₀.bitmap.isBitSet 0 = true)
    (hrun : Run FrameStep s es s') (h : ∃ p, Shares p₀ s p) : ∃ p, Shares p₀ s' p := by
  refine hrun.invariant (I := fun s => ∃ p, Shares p₀ s p) ?_ h
  intro s e s' hex hstep
  obtain ⟨p, hp⟩ := hex
  exact hp.step hzero hstep

/-- A move of a caller writes no byte of a frame that somebody owns. -/
theorem mem_core {e : CoreMove ι PmmOp} (h : Shares p₀ s p) (hstep : FrameStep s (.core e) s')
    (hf : f ∈ s.owned) {x : Nat} (hx : f.Has (x / PAGE_SIZE)) : s'.mem x = s.mem x := by
  obtain ⟨t, ht, hafter⟩ := Option.map_eq_some_iff.mp hstep.2
  have hmove : pmmCode.Step s.cores e t := ht
  rw [← hafter]
  rcases Guarded.step_cases hmove with ⟨i, op, rfl, _, rfl⟩ | ⟨i, op, rfl, _, _, rfl⟩ |
    ⟨i, op, pc, rfl, hi, hres, rfl⟩ | ⟨i, op, pc, ret, rfl, hi, hres, rfl⟩
  · cases op with
    | alloc count => rfl
    | free ptr count => rfl
  · rfl
  · simp only [FrameCores.after, hi]
    cases hz : FrameCores.zeroes (.inside op pc) with
    | none => rfl
    | some y =>
        rw [Option.elim_some]
        refine Function.update_of_ne (fun hxy => ?_) _ _
        -- the byte is in the frames that the call is about to return
        have hspot := h.spot hi
        generalize s.cores.shared = p' at hspot
        cases hspot with
        | @zero count page n hn hfit =>
            rw [FrameCores.zeroes] at hz
            split at hz
            · obtain rfl := Option.some.inj hz
              apply h.apart_of_fit hi hfit (List.mem_append_left _ hf) hx
              unfold PAGE_SIZE at *
              omega
            · cases hz
        | _ => cases hz
  · simp only [FrameCores.after, hi]
    split
    · rfl
    · rfl
    · rfl

omit [DecidableEq ι] in
/-- What a call returns when it returns frames: they are nobody's, and zero. -/
theorem returned {ptr : Nat} (h : Shares p₀ s p)
    (hi : s.cores.phase i = .inside (.alloc count) (.done ptr)) (hptr : ptr ≠ 0) :
    ptr / PAGE_SIZE + count ≤ p₀.pages ∧ (∀ f ∈ s.live, f.Apart ⟨ptr, count⟩) ∧
      ∀ x, ptr ≤ x → x < ptr + count * PAGE_SIZE → s.mem x = 0 := by
  have hcount := h.positive i count (by rw [hi]; rfl)
  have hspot := h.spot hi
  generalize s.cores.shared = p' at hspot
  cases hspot with
  | null hfit => exact absurd rfl hptr
  | @found _ page hfit =>
      have hpage : page * PAGE_SIZE / PAGE_SIZE = page := Nat.mul_div_cancel _ (by decide)
      refine ⟨?_, ?_, h.zeroed i _ _ hi hptr⟩
      · rw [hpage, ← h.tracks.pages_eq]
        exact (Pmm.fit_spec hcount hfit).1
      · intro f hf j hj hin
        unfold Frames.Has at hin
        rw [hpage] at hin
        exact h.apart_of_fit hi hfit hf hj hin

end Shares

/-- In every interleaving of the accesses of `PMM::alloc` and `PMM::free` by any number of
callers, and of the stores of owners to their frames: no two allocations that have not
been given back meet; a call returns frames that are inside the bitmap, that nobody else
has, and whose bytes are all zero; no call writes a byte of a frame that somebody owns;
and while the lock is free the used pages are those of the start and the live ones. -/
theorem cores_never_share {p₀ : Pmm} (mem : ByteMem) (hzero : p₀.bitmap.isBitSet 0 = true)
    {es : List (FrameMove ι)} {s : FrameCores ι} (hrun : Run FrameStep (.boot p₀ mem) es s) :
    s.live.Pairwise Frames.Apart ∧
    (∀ i count ptr, s.cores.phase i = .inside (.alloc count) (.done ptr) → ptr ≠ 0 →
      ptr / PAGE_SIZE + count ≤ p₀.pages ∧ (∀ f ∈ s.live, f.Apart ⟨ptr, count⟩) ∧
        ∀ x, ptr ≤ x → x < ptr + count * PAGE_SIZE → s.mem x = 0) ∧
    (∀ e s', FrameStep s (.core e) s' → ∀ f ∈ s.owned, ∀ x, f.Has (x / PAGE_SIZE) →
      s'.mem x = s.mem x) ∧
    (s.cores.lock = false → ∀ i, s.cores.shared.bitmap.isBitSet i = true ↔
      p₀.bitmap.isBitSet i = true ∨ ∃ f ∈ s.live, f.Has i) := by
  obtain ⟨p, h⟩ := Shares.run hzero hrun ⟨p₀, .boot p₀ mem⟩
  refine ⟨h.tracks.apart, fun i count ptr => h.returned, ?_, ?_⟩
  · intro e s' hstep f hf x hx
    exact h.mem_core hstep hf hx
  · intro hfree i
    rw [h.linked.shared_eq hfree]
    exact h.tracks.used i

/-- One core has got page 1 and has written to it; the other waits with its own call
while the first looks for another page. -/
theorem cores_never_share_two : ∃ s : FrameCores Bool, s.owned = [⟨0x1000, 1⟩] ∧
    s.live.Pairwise Frames.Apart := by
  have hend : (([.core (.call false (.alloc 1)), .core (.acquire false)] ++
      List.replicate 4101 (.core (.step false)) ++ [.core (.call true (.alloc 1)),
        .core (.release false), .write 0x1004 7, .core (.acquire true),
        .core (.call false (.alloc 2)), .core (.step true)] :
      List (FrameMove Bool)).foldlM FrameCores.attempt
      (.boot ⟨fun i => if i = 0 then 0x80 else 0, 2, by decide⟩ fun _ => 0)).map (·.owned) =
      some [⟨0x1000, 1⟩] := by decide +kernel
  obtain ⟨s, hs, howned⟩ := Option.map_eq_some_iff.mp hend
  exact ⟨s, howned, (cores_never_share _ (by decide)
    (Run.of_foldlM frameStep_of_attempt hs)).1⟩

end Toystar.Memory
