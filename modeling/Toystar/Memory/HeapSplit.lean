import Toystar.Memory.HeapShape
import Toystar.Verified.Buddy

/-!
# `split_block`

The header writes of a split (`cutBlock`), and the lemma the rest of the
development uses: splitting the head of a bucket returns and turns one block
of the tiling into its two halves.
-/

namespace Toystar.Memory.Heap

open Toystar.Kernel
open Toystar.Verified

variable {h : BuddyAllocator} {free : Nat → List Nat} {live : Set (Nat × Nat)}
  {a k : Nat} {rest : List Nat}

/-- The free lists after the head `a` of the bucket of order `j + 1` was cut. -/
def splitLists (free : Nat → List Nat) (j a : Nat) (rest : List Nat) :
    Nat → List Nat :=
  Function.update (Function.update free (j + 1) rest) j
    (a :: (a + 2 ^ j) :: free j)

section Cut

variable {half below i x : Nat}

theorem cutBlock_next_lower (hlt : a + half < 2 ^ 64) :
    (cutBlock h i a half below).next a = a + half := by
  simp only [cutBlock, setBucket_next]
  rw [next_setSize (.inl rfl), next_setNext_self hlt]

theorem cutBlock_next_upper (hsep : 16 ≤ half) (hlt : below < 2 ^ 64) :
    (cutBlock h i a half below).next (a + half) = below := by
  have hap : HeaderApart a (a + half) := .inl (by omega)
  simp only [cutBlock, setBucket_next]
  rw [next_setSize (.inr hap), next_setNext_of_apart hap,
    next_setSize (.inl rfl), next_setNext_self hlt]

theorem cutBlock_next_of_apart (ha : HeaderApart a x)
    (hb : HeaderApart (a + half) x) :
    (cutBlock h i a half below).next x = h.next x := by
  simp only [cutBlock, setBucket_next]
  rw [next_setSize (.inr ha), next_setNext_of_apart ha, next_setSize (.inr hb),
    next_setNext_of_apart hb]

theorem cutBlock_size_lower (hlt : half < 2 ^ 64) :
    (cutBlock h i a half below).size a = half := by
  simp only [cutBlock, setBucket_size]
  rw [size_setSize_self hlt]

theorem cutBlock_size_upper (hsep : 16 ≤ half) (hlt : half < 2 ^ 64) :
    (cutBlock h i a half below).size (a + half) = half := by
  have hap : HeaderApart a (a + half) := .inl (by omega)
  simp only [cutBlock, setBucket_size]
  rw [size_setSize_of_apart hap, size_setNext (.inr hap), size_setSize_self hlt]

theorem cutBlock_size_of_apart (ha : HeaderApart a x)
    (hb : HeaderApart (a + half) x) :
    (cutBlock h i a half below).size x = h.size x := by
  simp only [cutBlock, setBucket_size]
  rw [size_setSize_of_apart ha, size_setNext (.inr ha), size_setSize_of_apart hb,
    size_setNext (.inr hb)]

/-- A cut writes the two headers. -/
theorem writesIn_cutBlock (hsep : 16 ≤ half) :
    WritesIn a (half + half) h (cutBlock h i a half below) := by
  have h₁ : WritesIn a (half + half) h (h.setNext (a + half) below) :=
    writesIn_setNext (by omega) (by omega)
  have h₂ := h₁.trans (writesIn_setSize (b := a + half) (v := half) (by omega) (by omega))
  have h₃ := h₂.trans (writesIn_setNext (b := a) (v := a + half) (by omega) (by omega))
  have h₄ := h₃.trans (writesIn_setSize (b := a) (v := half) (by omega) (by omega))
  exact h₄.trans (writesIn_of_mem_eq rfl)

end Cut

theorem isBlock_split {j : Nat} (hs : Shape h free live)
    (hfree : free (j + 1) = a :: rest) {x i : Nat} :
    IsBlock (splitLists free j a rest) live x i ↔
      (i = j ∧ (x = a ∨ x = a + 2 ^ j)) ∨
        (IsBlock free live x i ∧ x ≠ a) := by
  have hmem : a ∈ free (j + 1) := by simp [hfree]
  have hnodup := hs.nodup (j + 1)
  rw [hfree, List.nodup_cons] at hnodup
  have hlive : ∀ i, (a, i) ∉ live := by
    intro i hi
    obtain rfl := hs.order_eq (.inl hmem) (.inr hi)
    exact hs.exclusive hmem hi
  unfold IsBlock splitLists
  by_cases hij : i = j
  · subst hij
    have hne : x ∈ free i → x ≠ a := by
      rintro hx rfl
      exact hs.not_mem_of_ne hmem (by omega) hx
    have hne' : (x, i) ∈ live → x ≠ a := by
      rintro hx rfl
      exact hlive i hx
    simp only [Function.update_self, List.mem_cons, true_and]
    grind
  · have hne' : (x, i) ∈ live → x ≠ a := by
      rintro hx rfl
      exact hlive i hx
    rw [Function.update_of_ne hij]
    by_cases hik : i = j + 1
    · subst hik
      have hx : x ∈ free (j + 1) ↔ x = a ∨ x ∈ rest := by simp [hfree]
      have hxa : x ∈ rest → x ≠ a := by
        rintro hr rfl
        exact hnodup.1 hr
      simp only [Function.update_self, hx, hij, false_and, false_or]
      grind
    · have hne : x ∈ free i → x ≠ a := by
        rintro hx rfl
        exact hs.not_mem_of_ne hmem hik hx
      rw [Function.update_of_ne hik]
      simp only [hij, false_and, false_or]
      grind

theorem moves_split {j : Nat} (hs : Shape h free live)
    (hfree : free (j + 1) = a :: rest) :
    Moves (IsBlock free live) (IsBlock (splitLists free j a rest) live) := by
  have hblk : IsBlock free live a (j + 1) := .inl (by simp [hfree])
  refine Moves.single (.split hblk ?_)
  intro x i
  rw [isBlock_split hs hfree]
  have hone : IsBlock free live x i → (x ≠ a ↔ ¬(i = j + 1 ∧ x = a)) := by
    intro hx
    constructor
    · rintro hne ⟨_, heq⟩
      exact hne heq
    · rintro hne rfl
      exact hne ⟨hs.order_eq hx hblk, rfl⟩
  exact or_congr_right (and_congr_right hone)

/-- The block set after a split is the tiling with one block cut in two. -/
private theorem blockSet_split {j : Nat} (hs : Shape h free live)
    (hfree : free (j + 1) = a :: rest) :
    blockSet (splitLists free j a rest) live =
      insert (a, 2 ^ j) (insert (a + 2 ^ j, 2 ^ j)
        (blockSet free live \ {(a, 2 ^ j + 2 ^ j)})) := by
  have hblk : IsBlock free live a (j + 1) := .inl (by simp [hfree])
  have hpow : 2 ^ j + 2 ^ j = 2 ^ (j + 1) := by rw [Nat.pow_succ]; omega
  ext ⟨x, n⟩
  simp only [blockSet, Set.mem_ofPred_eq, isBlock_split hs hfree,
    Set.mem_insert_iff, Set.mem_sdiff, Set.mem_singleton_iff, Prod.mk.injEq]
  constructor
  · rintro ⟨i, hn, ⟨rfl, rfl | rfl⟩ | ⟨hb, hxa⟩⟩
    · exact .inl ⟨rfl, hn⟩
    · exact .inr (.inl ⟨rfl, hn⟩)
    · exact .inr (.inr ⟨⟨i, hn, hb⟩, fun heq => hxa heq.1⟩)
  · rintro (⟨rfl, rfl⟩ | ⟨rfl, rfl⟩ | ⟨⟨i, hn, hb⟩, hne⟩)
    · exact ⟨j, rfl, .inl ⟨rfl, .inl rfl⟩⟩
    · exact ⟨j, rfl, .inl ⟨rfl, .inr rfl⟩⟩
    · refine ⟨i, hn, .inr ⟨hb, ?_⟩⟩
      rintro rfl
      obtain rfl := hs.order_eq hblk hb
      exact hne ⟨rfl, by rw [hn, hpow]⟩

/-- `split_block` on an empty bucket reports failure and changes nothing. -/
theorem splitBlock_of_nil (hs : Shape h free live) (hk : k ≤ MAX_POWER)
    (hfree : free k = []) : splitBlock h k = .ok (false, h) := by
  have hchain := hs.chains k hk
  rw [hfree, chain_nil] at hchain
  unfold splitBlock
  rw [if_neg (by unfold MIN_POWER; omega)]
  simp [bucket_order hk, hchain, bind, Except.bind]

/-- The allocator after the head `a` of the bucket of order `j + 1` was cut: the bucket goes
on with the next block, and the halves are in front of the bucket below. -/
def cutHead (h : BuddyAllocator) (j a : Nat) : BuddyAllocator :=
  cutBlock (h.setBucket (MAX_POWER - (j + 1)) (h.next a)) (MAX_POWER - (j + 1)) a (2 ^ j)
    (h.bucketList (MAX_POWER - j))

theorem cutHead_bucketList {j : Nat} (hj : j + 1 ≤ MAX_POWER) :
    (cutHead h j a).bucketList = Function.update (Function.update h.bucketList
      (MAX_POWER - (j + 1)) (h.next a)) (MAX_POWER - j) a := by
  have hidx : MAX_POWER - (j + 1) + 1 = MAX_POWER - j := by omega
  have hlast : (cutHead h j a).bucketList = Function.update
      (h.setBucket (MAX_POWER - (j + 1)) (h.next a)).bucketList (MAX_POWER - (j + 1) + 1) a := rfl
  rw [hlast, hidx]
  rfl

theorem splitBlock_of_cons {j : Nat} (hs : Shape h free live) (hj : 5 ≤ j)
    (hfree : free (j + 1) = a :: rest) :
    splitBlock h (j + 1) = .ok (true, cutHead h j a) := by
  have hblk : IsBlock free live a (j + 1) := .inl (by simp [hfree])
  have hk : j + 1 ≤ MAX_POWER := (hs.order hblk).2
  have hchain := hs.chains (j + 1) hk
  rw [hfree] at hchain
  have hpow : 2 ^ (j + 1) = 2 ^ j + 2 ^ j := by rw [Nat.pow_succ]; omega
  have hidx : MAX_POWER - (j + 1) + 1 = MAX_POWER - j := by omega
  have hbit : shiftOne (j + 1) = .ok (2 ^ (j + 1)) :=
    shiftOne_of_lt (by unfold MAX_POWER at hk; omega)
  have hbelow : (h.setBucket (MAX_POWER - (j + 1)) (h.next a)).bucketList (MAX_POWER - j) =
      h.bucketList (MAX_POWER - j) := by
    rw [setBucket_bucketList]
    exact Function.update_of_ne (by omega) _ _
  unfold splitBlock
  rw [if_neg (by unfold MIN_POWER; omega)]
  simp only [bucket_order hk, ok_bind, hchain.1, if_neg (hs.ne_zero hblk), hbit]
  rw [indexFromOrder_of_le hk, hidx, bucket_sub, ok_bind, hbelow,
    show 2 ^ (j + 1) / 2 = 2 ^ j by omega]
  rfl

section Head

variable {j x i : Nat}

/-- Any other block has its header apart from that of both halves. -/
theorem Shape.headerApart_halves (hs : Shape h free live) (hfree : free (j + 1) = a :: rest)
    (hx : IsBlock free live x i) (hne : x ≠ a) :
    HeaderApart a x ∧ HeaderApart (a + 2 ^ j) x := by
  have hblk : IsBlock free live a (j + 1) := .inl (by simp [hfree])
  have hpow : 2 ^ (j + 1) = 2 ^ j + 2 ^ j := by rw [Nat.pow_succ]; omega
  have hblkge := hs.pow_ge hblk
  have hxge := hs.pow_ge hx
  refine ⟨hs.apart hblk hx (Ne.symm hne), ?_⟩
  rcases hs.far hblk hx (Ne.symm hne) with hfar | hfar
  · exact .inl (by omega)
  · exact .inr (by omega)

theorem Shape.cutHead_next (hs : Shape h free live) (hfree : free (j + 1) = a :: rest)
    (hx : IsBlock free live x i) (hne : x ≠ a) : (cutHead h j a).next x = h.next x := by
  obtain ⟨hlower, hupper⟩ := hs.headerApart_halves hfree hx hne
  exact cutBlock_next_of_apart hlower hupper

theorem Shape.cutHead_size (hs : Shape h free live) (hfree : free (j + 1) = a :: rest)
    (hx : IsBlock free live x i) (hne : x ≠ a) : (cutHead h j a).size x = h.size x := by
  obtain ⟨hlower, hupper⟩ := hs.headerApart_halves hfree hx hne
  exact cutBlock_size_of_apart hlower hupper

/-- No block begins in the middle of another. -/
theorem Shape.not_isBlock_half (hs : Shape h free live) (hfree : free (j + 1) = a :: rest) :
    ¬IsBlock free live (a + 2 ^ j) i := by
  intro hx
  have hblk : IsBlock free live a (j + 1) := .inl (by simp [hfree])
  have hpow : 2 ^ (j + 1) = 2 ^ j + 2 ^ j := by rw [Nat.pow_succ]; omega
  have hpos := Nat.two_pow_pos j
  have hxge := hs.pow_ge hx
  have hfar := hs.far hblk hx (by omega)
  omega

theorem Shape.chains_cutHead (hs : Shape h free live) (hj : 5 ≤ j)
    (hfree : free (j + 1) = a :: rest) (hi : i ≤ MAX_POWER) :
    Chain 0 (cutHead h j a).next ((cutHead h j a).bucketList (MAX_POWER - i))
      (splitLists free j a rest i) := by
  have hmem : a ∈ free (j + 1) := by simp [hfree]
  have hblk : IsBlock free live a (j + 1) := .inl hmem
  have hk : j + 1 ≤ MAX_POWER := (hs.order hblk).2
  have hane := hs.ne_zero hblk
  have hpow : 2 ^ (j + 1) = 2 ^ j + 2 ^ j := by rw [Nat.pow_succ]; omega
  have hhalf : 32 ≤ 2 ^ j := show 2 ^ 5 ≤ 2 ^ j from
    Nat.pow_le_pow_right (by omega) hj
  have hbnd := hs.bounds hblk
  have htop := hs.base_lt
  rw [cutHead_bucketList hk]
  by_cases hij : i = j
  · subst hij
    simp only [splitLists, Function.update_self]
    refine ⟨rfl, hane, ?_⟩
    rw [show (cutHead h i a).next a = a + 2 ^ i from cutBlock_next_lower (by omega)]
    refine ⟨rfl, by omega, ?_⟩
    rw [show (cutHead h i a).next (a + 2 ^ i) = h.bucketList (MAX_POWER - i) from
      cutBlock_next_upper (by omega) (hs.head_lt (by omega))]
    refine (hs.chains i hi).congr fun x hx => hs.cutHead_next hfree (.inl hx) ?_
    rintro rfl
    exact hs.not_mem_of_ne hmem (by omega) hx
  · rw [Function.update_of_ne (by omega), splitLists, Function.update_of_ne hij]
    by_cases hik : i = j + 1
    · subst hik
      have hchain := hs.chains (j + 1) hk
      have hnodup := hs.nodup (j + 1)
      rw [hfree] at hchain
      rw [hfree, List.nodup_cons] at hnodup
      obtain ⟨_, _, hrest⟩ := hchain
      simp only [Function.update_self]
      refine hrest.congr fun x hx =>
        hs.cutHead_next hfree (i := j + 1) (.inl (by simp [hfree, hx])) ?_
      rintro rfl
      exact hnodup.1 hx
    · rw [Function.update_of_ne hik, Function.update_of_ne (by omega)]
      refine (hs.chains i hi).congr fun x hx => hs.cutHead_next hfree (.inl hx) ?_
      rintro rfl
      exact hs.not_mem_of_ne hmem hik hx

theorem Shape.nodup_splitLists (hs : Shape h free live) (hfree : free (j + 1) = a :: rest)
    (i : Nat) : (splitLists free j a rest i).Nodup := by
  by_cases hij : i = j
  · subst hij
    have hlower : a ∉ free i := hs.not_mem_of_ne (show a ∈ free (i + 1) by simp [hfree]) (by omega)
    have hupper : a + 2 ^ i ∉ free i := fun hmem => hs.not_isBlock_half hfree (.inl hmem)
    simp [splitLists, hlower, hupper, hs.nodup i]
  · rw [splitLists, Function.update_of_ne hij]
    by_cases hik : i = j + 1
    · subst hik
      have hnodup := hs.nodup (j + 1)
      rw [hfree, List.nodup_cons] at hnodup
      simpa using hnodup.2
    · simpa [Function.update_of_ne hik] using hs.nodup i

theorem Shape.exclusive_splitLists (hs : Shape h free live) (hfree : free (j + 1) = a :: rest)
    (hx : x ∈ splitLists free j a rest i) : (x, i) ∉ live := by
  intro hlive
  have hmem : a ∈ free (j + 1) := by simp [hfree]
  by_cases hij : i = j
  · subst hij
    simp only [splitLists, Function.update_self, List.mem_cons] at hx
    rcases hx with rfl | rfl | hx
    · obtain hi := hs.order_eq (.inl hmem) (.inr hlive)
      omega
    · exact hs.not_isBlock_half hfree (.inr hlive)
    · exact hs.exclusive hx hlive
  · rw [splitLists, Function.update_of_ne hij] at hx
    by_cases hik : i = j + 1
    · subst hik
      rw [Function.update_self] at hx
      exact hs.exclusive (show x ∈ free (j + 1) by simp [hfree, hx]) hlive
    · rw [Function.update_of_ne hik] at hx
      exact hs.exclusive hx hlive

end Head

/-- `split_block` cuts the head of a nonempty bucket. -/
theorem Shape.split {j : Nat} (hs : Shape h free live) (hj : 5 ≤ j)
    (hfree : free (j + 1) = a :: rest) :
    ∃ h', splitBlock h (j + 1) = .ok (true, h') ∧
      Shape h' (splitLists free j a rest) live ∧ KeepsLive live h h' ∧
      h'.heapLock = h.heapLock ∧ h'.baseAddr = h.baseAddr := by
  have hmem : a ∈ free (j + 1) := by simp [hfree]
  have hblk : IsBlock free live a (j + 1) := .inl hmem
  have hord := hs.order hblk
  have hpow : 2 ^ (j + 1) = 2 ^ j + 2 ^ j := by rw [Nat.pow_succ]; omega
  have hhalf : 32 ≤ 2 ^ j := show 2 ^ 5 ≤ 2 ^ j from
    Nat.pow_le_pow_right (by omega) hj
  have hbnd := hs.bounds hblk
  have htop := hs.base_lt
  have hkeep : KeepsLive live h (cutHead h j a) := by
    refine hs.keepsLive_free hmem ?_
    rw [hpow]
    exact writesIn_cutBlock (h := h.setBucket _ _) (by omega)
  refine ⟨cutHead h j a, splitBlock_of_cons hs hj hfree, ?_, hkeep, rfl, rfl⟩
  refine
    { chains := fun _ hi => hs.chains_cutHead hj hfree hi
      nodup := hs.nodup_splitLists hfree
      order := ?_
      size := ?_
      exclusive := fun hx => hs.exclusive_splitLists hfree hx
      tiles := ?_
      base_pos := hs.base_pos
      base_lt := hs.base_lt }
  · intro x i hx
    rcases (isBlock_split hs hfree).mp hx with ⟨rfl, _⟩ | ⟨hb, _⟩
    · omega
    · exact hs.order hb
  · intro x i hx
    have hhalfLt : 2 ^ j < 2 ^ 64 := by omega
    rcases (isBlock_split hs hfree).mp hx with ⟨rfl, rfl | rfl⟩ | ⟨hb, hne⟩
    · exact cutBlock_size_lower hhalfLt
    · exact cutBlock_size_upper (by omega) hhalfLt
    · rw [← hs.size hb]
      exact hs.cutHead_size hfree hb hne
  · rw [blockSet_split hs hfree]
    refine hs.tiles.split (by omega) (by omega) ?_
    rw [← hpow]
    exact mem_blockSet hblk

end Toystar.Memory.Heap
