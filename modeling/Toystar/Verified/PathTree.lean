import Mathlib.Data.List.Pairwise
import Mathlib.Logic.Function.Basic
import Mathlib.Order.Interval.Finset.Nat

/-!
# Trees of paths that are searched greedily

Keys are paths, strings in which a separator ends a component.  A tree stores
each key relative to the node it hangs on; a search follows the first child
that leads towards the searched path and never comes back, and an insertion
goes the same way and puts the rest of its key in front of the children of the
last node.

Such a tree finds the longest key above every path as long as no key comes
after one that lies below it (`lookup_perfect`, `Perfect.insert`); the first
key that does hides the one below it (`insert_shadows`), and no insertion
brings that one back (`lookup_insert`).
-/

namespace Toystar.Verified

variable {α β : Type}

/-! ## Paths -/

/-- `p` lies below `t`: after `t` comes a separator. -/
def Below (sep : α) (t p : List α) : Prop := ∃ rest, p = t ++ sep :: rest

section Below

variable {sep : α} {t u p q : List α}

theorem Below.length_lt (h : Below sep t p) : t.length < p.length := by
  rcases h with ⟨rest, rfl⟩
  simp

theorem Below.trans (h₁ : Below sep t u) (h₂ : Below sep u p) : Below sep t p := by
  rcases h₁ with ⟨r₁, rfl⟩
  rcases h₂ with ⟨r₂, rfl⟩
  exact ⟨r₁ ++ sep :: r₂, by simp⟩

theorem below_append_iff : Below sep (t ++ u) (t ++ p) ↔ Below sep u p := by
  constructor
  · rintro ⟨rest, h⟩
    rw [List.append_assoc] at h
    exact ⟨rest, List.append_cancel_left h⟩
  · rintro ⟨rest, rfl⟩
    exact ⟨rest, by rw [List.append_assoc]⟩

/-- Two paths above the same path are the same, or one is above the other. -/
theorem Below.total (ht : Below sep t p) (hu : Below sep u p) :
    t = u ∨ Below sep t u ∨ Below sep u t := by
  have hside : ∀ {a b : List α}, Below sep a p → Below sep b p → a.length < b.length →
      Below sep a b := by
    rintro a b ⟨r, ha⟩ ⟨r', hb⟩ hlt
    have hpre : a ++ [sep] <+: b := by
      have hap : a ++ [sep] <+: p := ⟨r, by simp [ha]⟩
      refine List.prefix_of_prefix_length_le hap ⟨sep :: r', hb.symm⟩ ?_
      rw [List.length_append]
      exact hlt
    rcases hpre with ⟨rest, rfl⟩
    exact ⟨rest, by simp⟩
  rcases Nat.lt_trichotomy t.length u.length with h | h | h
  · exact .inr (.inl (hside ht hu h))
  · left
    rcases ht with ⟨r, ht⟩
    rcases hu with ⟨r', hu⟩
    exact (List.append_inj (ht.symm.trans hu) h).1
  · exact .inr (.inr (hside hu ht h))

variable [DecidableEq α]

/-- The test for `Below`. -/
def isBelow (sep : α) (t p : List α) : Bool :=
  t.isPrefixOf p && decide (p[t.length]? = some sep)

/-- The test for being the same path or below it. -/
def isWithin (sep : α) (t p : List α) : Bool :=
  t.isPrefixOf p && (decide (p[t.length]? = some sep) || decide (p[t.length]? = none))

@[simp] theorem isBelow_iff : isBelow sep t p = true ↔ Below sep t p := by
  unfold isBelow Below
  rw [Bool.and_eq_true, decide_eq_true_eq, List.isPrefixOf_iff_prefix]
  constructor
  · rintro ⟨⟨rest, rfl⟩, hsep⟩
    rw [List.getElem?_append_right (le_refl _), Nat.sub_self] at hsep
    cases rest with
    | nil => simp at hsep
    | cons c rest =>
        rw [List.getElem?_cons_zero, Option.some.injEq] at hsep
        exact ⟨rest, by rw [hsep]⟩
  · rintro ⟨rest, rfl⟩
    exact ⟨⟨sep :: rest, rfl⟩, by simp⟩

@[simp] theorem isWithin_iff : isWithin sep t p = true ↔ t = p ∨ Below sep t p := by
  unfold isWithin
  rw [Bool.and_eq_true, Bool.or_eq_true, decide_eq_true_eq, decide_eq_true_eq,
    List.isPrefixOf_iff_prefix]
  constructor
  · rintro ⟨⟨rest, rfl⟩, hsep | hend⟩
    · right
      rw [← isBelow_iff]
      simp [isBelow, hsep]
    · left
      rw [List.getElem?_eq_none_iff, List.length_append] at hend
      have hnil : rest = [] := List.eq_nil_of_length_eq_zero (by omega)
      simp [hnil]
  · rintro (rfl | ⟨rest, rfl⟩)
    · exact ⟨List.prefix_refl _, .inr (by simp)⟩
    · exact ⟨⟨sep :: rest, rfl⟩, .inl (by simp)⟩

end Below

/-! ## Trees -/

/-- A node with its name relative to its parent, and its children in the order in
which a search tries them. -/
inductive PathTree (α β : Type)
  | node (name : List α) (value : β) (children : List (PathTree α β))

namespace PathTree

def name : PathTree α β → List α
  | node name _ _ => name

@[simp] theorem name_node (n : List α) (v : β) (cs : List (PathTree α β)) :
    (node n v cs).name = n := rfl

/-- Induction over a tree with the hypothesis for every child. -/
@[elab_as_elim]
theorem induct {P : PathTree α β → Prop}
    (node : ∀ n v cs, (∀ c ∈ cs, P c) → P (.node n v cs)) : ∀ t, P t
  | .node n v cs => node n v cs fun c hc =>
      have hlt : sizeOf c < sizeOf (PathTree.node n v cs) := by
        have := List.sizeOf_lt_of_mem hc
        simp only [PathTree.node.sizeOf_spec]
        omega
      induct node c
termination_by t => sizeOf t

/-- The children up to the first one that passes a test. -/
theorem first_or_none (P : PathTree α β → Prop) (cs : List (PathTree α β)) :
    (∀ c ∈ cs, ¬P c) ∨
      ∃ pre c post, cs = pre ++ c :: post ∧ (∀ d ∈ pre, ¬P d) ∧ P c := by
  classical
  induction cs with
  | nil => exact .inl (by simp)
  | cons c cs ih =>
      by_cases hc : P c
      · exact .inr ⟨[], c, cs, rfl, by simp, hc⟩
      · rcases ih with hnone | ⟨pre, d, post, rfl, hpre, hd⟩
        · exact .inl (List.forall_mem_cons.mpr ⟨hc, hnone⟩)
        · exact .inr ⟨c :: pre, d, post, rfl, List.forall_mem_cons.mpr ⟨hc, hpre⟩, hd⟩

variable [DecidableEq α] (sep : α)

mutual

/-- The value at the end of the search for `p`, and what is left of `p` there. -/
def lookup : PathTree α β → List α → β × List α
  | node _ value children, p => (lookupList children p).getD (value, p)

/-- The search below the first child that leads towards `p`. -/
def lookupList : List (PathTree α β) → List α → Option (β × List α)
  | [], _ => none
  | c :: cs, p =>
      if isBelow sep c.name p then some (lookup c (p.drop c.name.length))
      else lookupList cs p

end

mutual

/-- Insertion of `str`: down as long as a child leads there, then a new first child. -/
def insert : PathTree α β → List α → β → PathTree α β
  | node name value children, str, w =>
      match insertList children str w with
      | some children => node name value children
      | none => node name value (node str w [] :: children)

/-- Insertion below the first child that leads to `str`. -/
def insertList : List (PathTree α β) → List α → β → Option (List (PathTree α β))
  | [], _, _ => none
  | c :: cs, str, w =>
      if str ≠ [] ∧ isWithin sep c.name str then
        some (insert c (str.drop c.name.length) w :: cs)
      else (insertList cs str w).map (c :: ·)

end

variable {sep} {n str p : List α} {v w : β} {cs : List (PathTree α β)}

theorem lookupList_none (h : ∀ c ∈ cs, ¬Below sep c.name p) :
    lookupList sep cs p = none := by
  induction cs with
  | nil => rw [lookupList]
  | cons c cs ih =>
      rw [lookupList, if_neg (by rw [isBelow_iff]; exact h c (by simp))]
      exact ih fun d hd => h d (by simp [hd])

theorem lookupList_some {pre post : List (PathTree α β)} {c : PathTree α β}
    (hpre : ∀ d ∈ pre, ¬Below sep d.name p) (hc : Below sep c.name p) :
    lookupList sep (pre ++ c :: post) p = some (lookup sep c (p.drop c.name.length)) := by
  induction pre with
  | nil => rw [List.nil_append, lookupList, if_pos (by rwa [isBelow_iff])]
  | cons d pre ih =>
      rw [List.cons_append, lookupList,
        if_neg (by rw [isBelow_iff]; exact hpre d (by simp))]
      exact ih fun e he => hpre e (by simp [he])

/-- A search ends at a node, or goes on below the first child that leads on. -/
theorem lookup_cases (n : List α) (v : β) (cs : List (PathTree α β)) (p : List α) :
    ((∀ c ∈ cs, ¬Below sep c.name p) ∧ lookup sep (node n v cs) p = (v, p)) ∨
    ∃ pre c post q, cs = pre ++ c :: post ∧ (∀ d ∈ pre, ¬Below sep d.name p) ∧
      Below sep c.name p ∧ p = c.name ++ q ∧
      lookup sep (node n v cs) p = lookup sep c q := by
  rcases first_or_none (fun c => Below sep c.name p) cs with
    hnone | ⟨pre, c, post, rfl, hpre, hc⟩
  · exact .inl ⟨hnone, by rw [lookup, lookupList_none hnone]; rfl⟩
  · have hlook : lookup sep (node n v (pre ++ c :: post)) p =
        lookup sep c (p.drop c.name.length) := by
      rw [lookup, lookupList_some hpre hc]
      rfl
    refine .inr ⟨pre, c, post, p.drop c.name.length, rfl, hpre, hc, ?_, hlook⟩
    rcases hc with ⟨rest, hp⟩
    conv_lhs => rw [hp]
    simp [hp]

theorem insertList_none (h : str = [] ∨ ∀ c ∈ cs, ¬(c.name = str ∨ Below sep c.name str)) :
    insertList sep cs str w = none := by
  induction cs with
  | nil => rw [insertList]
  | cons c cs ih =>
      have hrest : str = [] ∨ ∀ d ∈ cs, ¬(d.name = str ∨ Below sep d.name str) :=
        h.imp_right fun hall d hd => hall d (by simp [hd])
      rw [insertList, if_neg, ih hrest]
      · rfl
      · rintro ⟨hne, hmatch⟩
        rw [isWithin_iff] at hmatch
        exact h.resolve_left hne c (by simp) hmatch

theorem insertList_some {pre post : List (PathTree α β)} {c : PathTree α β}
    (hpre : ∀ d ∈ pre, ¬(d.name = str ∨ Below sep d.name str)) (hne : str ≠ [])
    (hc : c.name = str ∨ Below sep c.name str) :
    insertList sep (pre ++ c :: post) str w =
      some (pre ++ insert sep c (str.drop c.name.length) w :: post) := by
  induction pre with
  | nil =>
      rw [List.nil_append, insertList, if_pos ⟨hne, by rwa [isWithin_iff]⟩,
        List.nil_append]
  | cons d pre ih =>
      rw [List.cons_append, insertList, if_neg, ih fun e he => hpre e (by simp [he])]
      · rfl
      · rintro ⟨_, hmatch⟩
        rw [isWithin_iff] at hmatch
        exact hpre d (by simp) hmatch

@[simp] theorem insert_name (t : PathTree α β) : (insert sep t str w).name = t.name := by
  cases t with
  | node n v cs =>
      rw [insert]
      split <;> rfl

/-- An insertion ends at a node, with a new first child, or goes on below the first
child that leads on. -/
theorem insert_cases (n : List α) (v : β) (cs : List (PathTree α β)) (str : List α)
    (w : β) :
    ((str = [] ∨ ∀ c ∈ cs, ¬(c.name = str ∨ Below sep c.name str)) ∧
      insert sep (node n v cs) str w = node n v (node str w [] :: cs)) ∨
    ∃ pre c post rest, cs = pre ++ c :: post ∧
      (∀ d ∈ pre, ¬(d.name = str ∨ Below sep d.name str)) ∧
      (c.name = str ∨ Below sep c.name str) ∧ str = c.name ++ rest ∧
      insert sep (node n v cs) str w = node n v (pre ++ insert sep c rest w :: post) := by
  by_cases hstr : str = []
  · refine .inl ⟨.inl hstr, ?_⟩
    rw [insert, insertList_none (.inl hstr)]
  · rcases first_or_none (fun c => c.name = str ∨ Below sep c.name str) cs with
      hnone | ⟨pre, c, post, rfl, hpre, hc⟩
    · refine .inl ⟨.inr hnone, ?_⟩
      rw [insert, insertList_none (.inr hnone)]
    · have hins : insert sep (node n v (pre ++ c :: post)) str w =
          node n v (pre ++ insert sep c (str.drop c.name.length) w :: post) := by
        rw [insert, insertList_some hpre hstr hc]
      refine .inr ⟨pre, c, post, str.drop c.name.length, rfl, hpre, hc, ?_, hins⟩
      rcases hc with hc | ⟨rest, hc⟩
      · simp [← hc]
      · conv_lhs => rw [hc]
        simp [hc]

/-! ## What an insertion does to a search -/

/-- A child that keeps its name keeps its place in the search. -/
theorem lookupList_replace {pre post : List (PathTree α β)} {c c' : PathTree α β}
    (hname : c'.name = c.name) (p : List α) :
    lookupList sep (pre ++ c' :: post) p = lookupList sep (pre ++ c :: post) p ∨
      ∃ q, p = c.name ++ q ∧ Below sep c.name p ∧
        lookupList sep (pre ++ c' :: post) p = some (lookup sep c' q) ∧
        lookupList sep (pre ++ c :: post) p = some (lookup sep c q) := by
  induction pre with
  | nil =>
      by_cases hc : Below sep c.name p
      · have hp : p = c.name ++ p.drop c.name.length := by
          rcases hc with ⟨rest, hp⟩
          conv_lhs => rw [hp]
          simp [hp]
        refine .inr ⟨p.drop c.name.length, hp, hc, ?_, ?_⟩
        · rw [List.nil_append, lookupList, if_pos (by rwa [isBelow_iff, hname]), hname]
        · rw [List.nil_append, lookupList, if_pos (by rwa [isBelow_iff])]
      · left
        rw [List.nil_append, List.nil_append, lookupList, lookupList,
          if_neg (by rwa [isBelow_iff, hname]), if_neg (by rwa [isBelow_iff])]
  | cons d pre ih =>
      rw [List.cons_append, List.cons_append, lookupList, lookupList]
      by_cases hd : isBelow sep d.name p = true
      · exact .inl (by rw [if_pos hd, if_pos hd])
      · rw [if_neg hd, if_neg hd]
        exact ih

/-- A search finds what it found before, or it ends at the new node. -/
theorem lookup_insert (t : PathTree α β) (str : List α) (w : β) (p : List α) :
    lookup sep (insert sep t str w) p = lookup sep t p ∨
      (Below sep str p ∧ lookup sep (insert sep t str w) p = (w, p.drop str.length)) := by
  induction t using induct generalizing str p with | node n v cs ih
  rcases insert_cases n v cs str w with
    ⟨_, hins⟩ | ⟨pre, c, post, rest, rfl, _, _, rfl, hins⟩
  · rw [hins]
    by_cases hp : Below sep str p
    · right
      refine ⟨hp, ?_⟩
      rw [lookup, lookupList, if_pos (by rwa [isBelow_iff])]
      simp [lookup, lookupList]
    · left
      rw [lookup, lookup, lookupList, if_neg (by rwa [isBelow_iff])]
  · rw [hins]
    rcases lookupList_replace
        (insert_name c) p with
      hsame | ⟨q, rfl, _, hnew, hold⟩
    · left
      rw [lookup, lookup, hsame]
    · rw [lookup, lookup, hnew, hold]
      rcases ih c (by simp) rest q with hsame | ⟨hq, hend⟩
      · exact .inl (by simp [hsame])
      · refine .inr ⟨below_append_iff.mpr hq, ?_⟩
        simp [hend, List.drop_append]

/-! ## Trees that find the longest key -/

/-- The tree holds the keys of `m`, each below the longest key above it.  A key is
empty, the node's own, or starts with the separator. -/
inductive Perfect (sep : α) : (List α → Option β) → PathTree α β → Prop
  | node {m : List α → Option β} {n : List α} {v : β} {cs : List (PathTree α β)}
      (own : m [] = some v)
      (named : ∀ c ∈ cs, Below sep [] c.name)
      (minimal : ∀ c ∈ cs, ∀ r, Below sep [] r → Below sep r c.name → m r = none)
      (distinct : cs.Pairwise fun c d => c.name ≠ d.name)
      (covers : ∀ r, Below sep [] r → m r ≠ none →
        ∃ c ∈ cs, c.name = r ∨ Below sep c.name r)
      (below : ∀ c ∈ cs, Perfect sep (fun r => m (c.name ++ r)) c) :
      Perfect sep m (node n v cs)

namespace Perfect

variable {m m' : List α → Option β} {t : PathTree α β} {u : List α}

omit [DecidableEq α] in
/-- Only the keys matter. -/
theorem congr (h : Perfect sep m t) (heq : ∀ r, r = [] ∨ Below sep [] r → m' r = m r) :
    Perfect sep m' t := by
  induction h generalizing m' with
  | @node m n v cs own named minimal distinct covers below ih =>
      refine .node ?_ named ?_ distinct ?_ ?_
      · rw [heq [] (.inl rfl), own]
      · intro c hc r hr hrc
        rw [heq r (.inr hr), minimal c hc r hr hrc]
      · intro r hr hmr
        rw [heq r (.inr hr)] at hmr
        exact covers r hr hmr
      · intro c hc
        refine ih c hc fun r hr => heq _ (.inr ?_)
        exact (named c hc).elim fun rest hrest => ⟨rest ++ r, by rw [hrest]; simp⟩

omit [DecidableEq α] in
theorem key_of_child {c : PathTree α β} (h : Perfect sep m (.node n v cs))
    (hc : c ∈ cs) : m c.name ≠ none := by
  cases h with
  | node _ _ _ _ _ below =>
      cases below c hc with
      | node own _ _ _ _ _ =>
          simpa using ne_of_eq_of_ne own (Option.some_ne_none _)

omit [DecidableEq α] in
/-- At most one child is a key at or above a given path. -/
theorem unique {c d : PathTree α β} (h : Perfect sep m (.node n v cs)) (hc : c ∈ cs)
    (hd : d ∈ cs) (hcu : c.name = u ∨ Below sep c.name u)
    (hdu : d.name = u ∨ Below sep d.name u) : c.name = d.name := by
  have hkeyc := h.key_of_child hc
  have hkeyd := h.key_of_child hd
  cases h with
  | node _ named minimal _ _ _ =>
      rcases hcu with rfl | hcu <;> rcases hdu with hdu | hdu
      · exact hdu.symm
      · exact absurd (minimal c hc _ (named d hd) hdu) hkeyd
      · rw [← hdu] at hcu
        exact absurd (minimal d hd _ (named c hc) hcu) hkeyc
      · rcases hcu.total hdu with heq | hlt | hlt
        · exact heq
        · exact absurd (minimal d hd _ (named c hc) hlt) hkeyc
        · exact absurd (minimal c hc _ (named d hd) hlt) hkeyd

/-- A search ends at the longest key above the path. -/
theorem lookup (h : Perfect sep m t) (p : List α) :
    ∃ k, m k = some (lookup sep t p).1 ∧ p = k ++ (lookup sep t p).2 ∧
      (k = [] ∨ (Below sep [] k ∧ Below sep k p)) ∧
      ∀ r, Below sep [] r → m r ≠ none → Below sep r p → r.length ≤ k.length := by
  induction h generalizing p with
  | @node m n v cs own named minimal distinct covers below ih =>
      have hthis : Perfect sep m (.node n v cs) :=
        .node own named minimal distinct covers below
      rcases lookup_cases n v cs p with
        ⟨hnone, hlook⟩ | ⟨pre, c, post, q, rfl, _, hc, rfl, hlook⟩
      · rw [hlook]
        refine ⟨[], own, rfl, .inl rfl, ?_⟩
        intro r hr hmr hrp
        rcases covers r hr hmr with ⟨c, hc, rfl | hcr⟩
        · exact absurd hrp (hnone c hc)
        · exact absurd (hcr.trans hrp) (hnone c hc)
      · have hmem : c ∈ pre ++ c :: post := by simp
        rw [hlook]
        rcases ih c hmem q with ⟨k, hk, hq, hbelow, hmax⟩
        have hname := named c hmem
        have hkey : Below sep [] (c.name ++ k) := by
          rcases hname with ⟨rest, hrest⟩
          exact ⟨rest ++ k, by rw [hrest]; simp⟩
        refine ⟨c.name ++ k, hk, ?_, .inr ⟨hkey, ?_⟩, ?_⟩
        · rw [List.append_assoc, ← hq]
        · rcases hbelow with rfl | ⟨_, hbelow⟩
          · simpa using hc
          · exact below_append_iff.mpr hbelow
        · intro r hr hmr hrp
          rw [List.length_append]
          rcases hrp.total hc with rfl | hlt | hgt
          · omega
          · exact absurd (minimal c hmem r hr hlt) hmr
          · rcases hgt with ⟨rest, rfl⟩
            have hlen := hmax (sep :: rest) ⟨rest, rfl⟩ hmr (below_append_iff.mp hrp)
            rw [List.length_append]
            omega

/-! A new key `str` that no key lies below, in a tree of a node with children. -/

section Update

variable {c c' : PathTree α β} {pre post : List (PathTree α β)}

theorem own_update (h : Perfect sep m (.node n v cs)) (hkey : Below sep [] str) :
    Function.update m str (some w) [] = some v := by
  have hne : [] ≠ str := by
    rintro rfl
    exact absurd hkey.length_lt (lt_irrefl _)
  cases h with
  | node own _ _ _ _ _ => rw [Function.update_of_ne hne, own]

/-- It is not above the name of a child. -/
theorem minimal_update (h : Perfect sep m (.node n v cs))
    (hleaf : ∀ r, m r ≠ none → ¬Below sep str r) (hc : c ∈ cs) {r : List α}
    (hr : Below sep [] r) (hrc : Below sep r c.name) :
    Function.update m str (some w) r = none := by
  have hrs : r ≠ str := by
    rintro rfl
    exact hleaf _ (h.key_of_child hc) hrc
  cases h with
  | node _ _ minimal _ _ _ => rw [Function.update_of_ne hrs, minimal c hc r hr hrc]

/-- A child that does not lead to it keeps its keys. -/
theorem below_update (h : Perfect sep m (.node n v cs)) (hc : c ∈ cs)
    (hno : ¬(c.name = str ∨ Below sep c.name str)) :
    Perfect sep (fun r => Function.update m str (some w) (c.name ++ r)) c := by
  cases h with
  | node _ _ _ _ _ below =>
      refine (below c hc).congr fun r hr => Function.update_of_ne ?_ _ _
      rintro rfl
      rcases hr with rfl | ⟨rest, rfl⟩
      · exact hno (.inl (by simp))
      · exact hno (.inr ⟨rest, rfl⟩)

/-- When no child leads to it, it is a new first child. -/
theorem insertFirst (h : Perfect sep m (.node n v cs)) (hkey : Below sep [] str)
    (hnew : m str = none) (hleaf : ∀ r, m r ≠ none → ¬Below sep str r)
    (hno : ∀ d ∈ cs, ¬(d.name = str ∨ Below sep d.name str)) :
    Perfect sep (Function.update m str (some w)) (.node n v (.node str w [] :: cs)) := by
  have hthis := h
  cases h with
  | node own named minimal distinct covers below =>
      refine .node (hthis.own_update hkey) ?_ ?_ ?_ ?_ ?_
      · exact List.forall_mem_cons.mpr ⟨hkey, named⟩
      · intro d hd r hr hrd
        rcases List.mem_cons.mp hd with rfl | hd
        · have hrne : r ≠ str := by
            rintro rfl
            exact absurd hrd.length_lt (lt_irrefl _)
          rw [Function.update_of_ne hrne]
          by_contra hmr
          rcases covers r hr hmr with ⟨c, hc, rfl | hcr⟩
          · exact hno c hc (.inr hrd)
          · exact hno c hc (.inr (hcr.trans hrd))
        · exact hthis.minimal_update hleaf hd hr hrd
      · refine List.pairwise_cons.mpr ⟨fun d hd heq => ?_, distinct⟩
        exact hno d hd (.inl heq.symm)
      · intro r hr hmr
        by_cases hrs : r = str
        · subst hrs
          exact ⟨.node r w [], by simp, .inl rfl⟩
        · rw [Function.update_of_ne hrs] at hmr
          rcases covers r hr hmr with ⟨c, hc, hcr⟩
          exact ⟨c, by simp [hc], hcr⟩
      · intro d hd
        rcases List.mem_cons.mp hd with rfl | hd
        · refine .node (by simp) (by simp) (by simp) (by simp) ?_ (by simp)
          rintro r ⟨rest, rfl⟩ hmr
          have hrs : (PathTree.node str w []).name ++ ([] ++ sep :: rest) ≠ str := by simp
          rw [Function.update_of_ne hrs] at hmr
          exact absurd ⟨rest, rfl⟩ (hleaf _ hmr)
        · exact hthis.below_update hd (hno d hd)

/-- When a child leads to it, that child changes and keeps its name. -/
theorem replaceChild (h : Perfect sep m (.node n v (pre ++ c :: post)))
    (hname : c'.name = c.name) (hkey : Below sep [] str) (hbelow : Below sep c.name str)
    (hleaf : ∀ r, m r ≠ none → ¬Below sep str r)
    (hc' : Perfect sep (fun r => Function.update m str (some w) (c.name ++ r)) c') :
    Perfect sep (Function.update m str (some w)) (.node n v (pre ++ c' :: post)) := by
  have hthis := h
  have hmem : c ∈ pre ++ c :: post := by simp
  have hnames : (pre ++ c' :: post).map name = (pre ++ c :: post).map name := by simp [hname]
  cases h with
  | node own named minimal distinct covers below =>
      -- the children are the changed one and others
      have hcases : ∀ d ∈ pre ++ c' :: post,
          d = c' ∨ (d ∈ pre ++ c :: post ∧ d.name ≠ c.name) := by
        intro d hd
        have hapart := List.pairwise_append.mp distinct
        rw [List.mem_append, List.mem_cons] at hd
        rcases hd with hd | rfl | hd
        · exact .inr ⟨by simp [hd], hapart.2.2 d hd c (by simp)⟩
        · exact .inl rfl
        · refine .inr ⟨by simp [hd], ?_⟩
          exact Ne.symm ((List.pairwise_cons.mp hapart.2.1).1 d hd)
      have hold : ∀ d ∈ pre ++ c' :: post, ∃ e ∈ pre ++ c :: post, e.name = d.name := by
        intro d hd
        rcases hcases d hd with rfl | ⟨hd, _⟩
        · exact ⟨c, hmem, hname.symm⟩
        · exact ⟨d, hd, rfl⟩
      refine .node (hthis.own_update hkey) ?_ ?_ ?_ ?_ ?_
      · intro d hd
        rcases hold d hd with ⟨e, he, heq⟩
        rw [← heq]
        exact named e he
      · intro d hd r hr hrd
        rcases hold d hd with ⟨e, he, heq⟩
        rw [← heq] at hrd
        exact hthis.minimal_update hleaf he hr hrd
      · rw [← List.pairwise_map (f := name) (R := (· ≠ ·)), hnames, List.pairwise_map]
        exact distinct
      · intro r hr hmr
        have hlead : ∃ d ∈ pre ++ c :: post, d.name = r ∨ Below sep d.name r := by
          by_cases hrs : r = str
          · exact ⟨c, hmem, .inr (hrs ▸ hbelow)⟩
          · rw [Function.update_of_ne hrs] at hmr
            exact covers r hr hmr
        rcases hlead with ⟨d, hd, hdr⟩
        have hdname : d.name ∈ (pre ++ c' :: post).map name := by
          rw [hnames]
          exact List.mem_map_of_mem hd
        rcases List.mem_map.mp hdname with ⟨d', hd', heq⟩
        exact ⟨d', hd', by rwa [heq]⟩
      · intro d hd
        rcases hcases d hd with rfl | ⟨hd, hne⟩
        · rw [hname]
          exact hc'
        · refine hthis.below_update hd fun hlead => ?_
          exact hne (hthis.unique hd hmem hlead (.inr hbelow))

end Update

/-- A key that no key lies below goes to its place. -/
theorem insert (h : Perfect sep m t) (hkey : Below sep [] str) (hnew : m str = none)
    (hleaf : ∀ r, m r ≠ none → ¬Below sep str r) :
    Perfect sep (Function.update m str (some w)) (insert sep t str w) := by
  induction h generalizing str with
  | @node m n v cs own named minimal distinct covers below ih =>
      have hthis : Perfect sep m (.node n v cs) :=
        .node own named minimal distinct covers below
      have hne : str ≠ [] := by
        rintro rfl
        exact absurd hkey.length_lt (lt_irrefl _)
      rcases insert_cases n v cs str w with
        ⟨hno, hins⟩ | ⟨pre, c, post, rest, rfl, _, hc, rfl, hins⟩
      · rw [hins]
        exact hthis.insertFirst hkey hnew hleaf (hno.resolve_left hne)
      · have hmem : c ∈ pre ++ c :: post := by simp
        have hbelow : Below sep c.name (c.name ++ rest) := by
          refine hc.resolve_left fun heq => ?_
          rw [← heq] at hnew
          exact hthis.key_of_child hmem hnew
        have hrest : Below sep [] rest := by
          rw [← List.append_nil c.name, List.append_assoc] at hbelow
          exact below_append_iff.mp (by simpa using hbelow)
        have hupdate : (fun r => Function.update m (c.name ++ rest) (some w) (c.name ++ r)) =
            Function.update (fun r => m (c.name ++ r)) rest (some w) := by
          funext r
          by_cases hr : r = rest
          · simp [hr]
          · rw [Function.update_of_ne hr,
              Function.update_of_ne fun heq => hr (List.append_cancel_left heq)]
        rw [hins]
        refine hthis.replaceChild (insert_name c) hkey hbelow hleaf ?_
        rw [hupdate]
        exact ih c hmem hrest hnew fun r hr hlow => hleaf _ hr (below_append_iff.mpr hlow)

/-- A key that comes after one below it hides that one. -/
theorem insert_shadows (h : Perfect sep m t) (hnew : m str = none) (hu : m u ≠ none)
    (hbelow : Below sep str u) :
    (PathTree.lookup sep (PathTree.insert sep t str w) (u ++ [sep])).2 ≠ [sep] := by
  induction h generalizing str u with
  | @node m n v cs own named minimal distinct covers below ih =>
      have hthis : Perfect sep m (.node n v cs) :=
        .node own named minimal distinct covers below
      have hne : str ≠ [] := by
        rintro rfl
        rw [own] at hnew
        cases hnew
      rcases insert_cases n v cs str w with
        ⟨_, hins⟩ | ⟨pre, c, post, rest, rfl, hpre, hc, rfl, hins⟩
      · -- the new node is tried first and has no children
        rcases hbelow with ⟨rest, rfl⟩
        have hfirst : isBelow sep str (str ++ sep :: rest ++ [sep]) = true := by
          rw [isBelow_iff]
          exact ⟨rest ++ [sep], by simp⟩
        rw [hins, PathTree.lookup, lookupList, name_node, if_pos hfirst]
        simp [PathTree.lookup, lookupList]
      · have hmem : c ∈ pre ++ c :: post := by simp
        have hcu : Below sep c.name u := by
          rcases hc with hc | hc
          · rw [hc]
            exact hbelow
          · exact hc.trans hbelow
        rcases hbelow with ⟨tail, rfl⟩
        have hlead : Below sep c.name (c.name ++ rest ++ sep :: tail ++ [sep]) := by
          rcases hcu with ⟨x, hx⟩
          exact ⟨x ++ [sep], by rw [hx]; simp⟩
        have hpre' : ∀ d ∈ pre,
            ¬Below sep d.name (c.name ++ rest ++ sep :: tail ++ [sep]) := by
          intro d hd hdb
          have hname := hthis.unique (by simp [hd]) hmem (.inr hdb) (.inr hlead)
          have hapart := (List.pairwise_append.mp distinct).2.2 d hd c (by simp)
          exact hapart hname
        have hdown : PathTree.lookup sep (PathTree.insert sep (.node n v (pre ++ c :: post))
            (c.name ++ rest) w) (c.name ++ rest ++ sep :: tail ++ [sep]) =
            PathTree.lookup sep (PathTree.insert sep c rest w)
              (rest ++ sep :: tail ++ [sep]) := by
          rw [hins, PathTree.lookup, lookupList_some hpre' (by rwa [insert_name])]
          simp
        rw [hdown]
        refine ih c hmem (u := rest ++ sep :: tail) hnew ?_ ⟨tail, rfl⟩
        show m (c.name ++ (rest ++ sep :: tail)) ≠ none
        rw [← List.append_assoc]
        exact hu

end Perfect

/-! ## Sequences of insertions -/

/-- Keys inserted one after the other. -/
def insertAll (sep : α) (t : PathTree α β) (seq : List (List α × β)) : PathTree α β :=
  seq.foldl (fun t e => insert sep t e.1 e.2) t

/-- The keys of a tree after the insertions. -/
def addKeys (m : List α → Option β) (seq : List (List α × β)) : List α → Option β :=
  seq.foldl (fun m e => Function.update m e.1 (some e.2)) m

/-- `r` is what the longest key above `p` gives, or the root when there is none. -/
def Resolves (sep : α) (seq : List (List α × β)) (root : β) (p : List α)
    (r : β × List α) : Prop :=
  (∃ k, (k, r.1) ∈ seq ∧ p = k ++ r.2 ∧ Below sep k p ∧
    ∀ e ∈ seq, Below sep e.1 p → e.1.length ≤ k.length) ∨
  ((∀ e ∈ seq, ¬Below sep e.1 p) ∧ r = (root, p))

section Sequences

variable {m : List α → Option β} {t : PathTree α β} {seq : List (List α × β)}
  {k u : List α} {x : β}

@[simp] theorem addKeys_cons (e : List α × β) :
    addKeys m (e :: seq) = addKeys (Function.update m e.1 (some e.2)) seq := rfl

@[simp] theorem insertAll_cons (e : List α × β) :
    insertAll sep t (e :: seq) = insertAll sep (insert sep t e.1 e.2) seq := rfl

theorem addKeys_of_notMem (hk : k ∉ seq.map Prod.fst) : addKeys m seq k = m k := by
  induction seq generalizing m with
  | nil => rfl
  | cons e seq ih =>
      rw [List.map_cons, List.mem_cons, not_or] at hk
      rw [addKeys_cons, ih hk.2, Function.update_of_ne hk.1]

theorem addKeys_of_mem (hk : (k, x) ∈ seq) (hnodup : (seq.map Prod.fst).Nodup) :
    addKeys m seq k = some x := by
  induction seq generalizing m with
  | nil => cases hk
  | cons e seq ih =>
      rw [List.map_cons, List.nodup_cons] at hnodup
      rw [addKeys_cons]
      rcases List.mem_cons.mp hk with rfl | hk
      · rw [addKeys_of_notMem hnodup.1, Function.update_self]
      · exact ih hk hnodup.2

theorem addKeys_eq_some (hnodup : (seq.map Prod.fst).Nodup) :
    addKeys m seq k = some x ↔
      (k, x) ∈ seq ∨ (k ∉ seq.map Prod.fst ∧ m k = some x) := by
  by_cases hk : k ∈ seq.map Prod.fst
  · rcases List.mem_map.mp hk with ⟨⟨k', y⟩, he, rfl⟩
    rw [addKeys_of_mem he hnodup]
    constructor
    · intro heq
      rw [← Option.some.inj heq]
      exact .inl he
    · rintro (hx | ⟨hnot, _⟩)
      · rw [← addKeys_of_mem (m := m) he hnodup, addKeys_of_mem hx hnodup]
      · exact absurd hk hnot
  · rw [addKeys_of_notMem hk]
    constructor
    · exact fun hmk => .inr ⟨hk, hmk⟩
    · rintro (hx | ⟨_, hmk⟩)
      · exact absurd (List.mem_map_of_mem hx) hk
      · exact hmk

/-- Keys that come before the keys below them keep the tree perfect. -/
theorem Perfect.insertAll (h : Perfect sep m t) (hkeys : ∀ e ∈ seq, Below sep [] e.1)
    (hfresh : ∀ e ∈ seq, m e.1 = none)
    (hleaf : ∀ e ∈ seq, ∀ r, m r ≠ none → ¬Below sep e.1 r)
    (hnodup : (seq.map Prod.fst).Nodup)
    (hord : seq.Pairwise fun e f => ¬Below sep f.1 e.1) :
    Perfect sep (addKeys m seq) (PathTree.insertAll sep t seq) := by
  induction seq generalizing m t with
  | nil => exact h
  | cons e seq ih =>
      rw [List.map_cons, List.nodup_cons] at hnodup
      rw [List.pairwise_cons] at hord
      rw [addKeys_cons, insertAll_cons]
      refine ih (h.insert (hkeys e (by simp)) (hfresh e (by simp)) (hleaf e (by simp)))
        (fun f hf => hkeys f (by simp [hf])) ?_ ?_ hnodup.2 hord.2
      · intro f hf
        have hne : f.1 ≠ e.1 := fun heq => hnodup.1 (heq ▸ List.mem_map_of_mem hf)
        rw [Function.update_of_ne hne, hfresh f (by simp [hf])]
      · intro f hf r hr
        by_cases hre : r = e.1
        · subst hre
          exact hord.1 f hf
        · rw [Function.update_of_ne hre] at hr
          exact hleaf f (by simp [hf]) r hr

/-- A hidden key stays hidden. -/
theorem shadowed_insertAll
    (h : (PathTree.lookup sep t (u ++ [sep])).2 ≠ [sep]) (hne : ∀ e ∈ seq, e.1 ≠ u) :
    (PathTree.lookup sep (PathTree.insertAll sep t seq) (u ++ [sep])).2 ≠ [sep] := by
  induction seq generalizing t with
  | nil => exact h
  | cons e seq ih =>
      refine ih ?_ fun f hf => hne f (by simp [hf])
      rcases lookup_insert t e.1 e.2 (u ++ [sep]) with
        hsame | ⟨hbelow, hend⟩
      · rwa [hsame]
      · rw [hend]
        intro heq
        have hlen := congrArg List.length heq
        have hlt := hbelow.length_lt
        rw [List.length_drop] at hlen
        rw [List.length_append, List.length_singleton] at hlen hlt
        rcases hbelow with ⟨rest, hrest⟩
        exact hne e (by simp) (List.append_inj hrest (by omega)).1.symm

/-- Some key comes after a key below it, which it hides. -/
theorem Perfect.shadowed (h : Perfect sep m t) (hkeys : ∀ e ∈ seq, Below sep [] e.1)
    (hfresh : ∀ e ∈ seq, m e.1 = none) (hnodup : (seq.map Prod.fst).Nodup)
    (hbad : (∃ e ∈ seq, ∃ r, m r ≠ none ∧ Below sep e.1 r) ∨
      ¬seq.Pairwise fun e f => ¬Below sep f.1 e.1) :
    ∃ u, Below sep [] u ∧ (m u ≠ none ∨ u ∈ seq.map Prod.fst) ∧
      (PathTree.lookup sep (PathTree.insertAll sep t seq) (u ++ [sep])).2 ≠ [sep] := by
  induction seq generalizing m t with
  | nil => simp at hbad
  | cons e seq ih =>
      rw [List.map_cons, List.nodup_cons] at hnodup
      by_cases hext : ∃ r, m r ≠ none ∧ Below sep e.1 r
      · rcases hext with ⟨u, hu, hbelow⟩
        refine ⟨u, (hkeys e (by simp)).trans hbelow, .inl hu, ?_⟩
        rw [insertAll_cons]
        refine shadowed_insertAll (h.insert_shadows (hfresh e (by simp)) hu hbelow) ?_
        rintro f hf rfl
        exact hu (hfresh f (by simp [hf]))
      · have hleaf : ∀ r, m r ≠ none → ¬Below sep e.1 r :=
          fun r hr hb => hext ⟨r, hr, hb⟩
        have hrest := ih (h.insert (w := e.2) (hkeys e (by simp)) (hfresh e (by simp)) hleaf)
          (fun f hf => hkeys f (by simp [hf])) ?_ hnodup.2 ?_
        · rcases hrest with ⟨u, hkey, hu, hhid⟩
          refine ⟨u, hkey, ?_, hhid⟩
          by_cases hue : u = e.1
          · exact .inr (by simp [hue])
          · rw [Function.update_of_ne hue] at hu
            exact hu.imp_right fun hmem => by simp [hmem]
        · intro f hf
          have hne : f.1 ≠ e.1 := fun heq => hnodup.1 (heq ▸ List.mem_map_of_mem hf)
          rw [Function.update_of_ne hne, hfresh f (by simp [hf])]
        · rcases hbad with ⟨f, hf, r, hr, hfr⟩ | hbad
          · rcases List.mem_cons.mp hf with rfl | hf
            · exact absurd hfr (hleaf r hr)
            · refine .inl ⟨f, hf, r, ?_, hfr⟩
              by_cases hre : r = e.1
              · simp [hre]
              · rwa [Function.update_of_ne hre]
          · rw [List.pairwise_cons] at hbad
            by_cases hfirst : ∀ f ∈ seq, ¬Below sep f.1 e.1
            · exact .inr fun hord => hbad ⟨hfirst, hord⟩
            · push Not at hfirst
              rcases hfirst with ⟨f, hf, hfe⟩
              exact .inl ⟨f, hf, e.1, by simp, hfe⟩

variable {n : List α} {v : β}

omit [DecidableEq α] in
/-- The tree of one node holds the empty key. -/
theorem perfect_leaf : Perfect sep (fun r => if r = [] then some v else none)
    (.node n v [] : PathTree α β) := by
  refine .node (by simp) (by simp) (by simp) (by simp) ?_ (by simp)
  rintro r ⟨rest, rfl⟩ hr
  simp at hr

/-- With every key before the keys below it, searches find the longest one. -/
theorem resolves_of_ordered (hkeys : ∀ e ∈ seq, Below sep [] e.1)
    (hnodup : (seq.map Prod.fst).Nodup)
    (hord : seq.Pairwise fun e f => ¬Below sep f.1 e.1) (p : List α) :
    Resolves sep seq v p (lookup sep (insertAll sep (.node n v []) seq) p) := by
  have hne : ∀ e ∈ seq, e.1 ≠ [] := by
    intro e he heq
    rcases hkeys e he with ⟨rest, hrest⟩
    rw [heq] at hrest
    cases hrest
  have hperfect := perfect_leaf (n := n) (v := v).insertAll hkeys
    (fun e he => if_neg (hne e he))
    (fun e he r hr hb => by
      have hlt := hb.length_lt
      by_cases hr' : r = []
      · simp [hr'] at hlt
      · simp [hr'] at hr) hnodup hord
  rcases hperfect.lookup p with ⟨k, hk, hp, hbelow, hmax⟩
  have hlongest : ∀ e ∈ seq, Below sep e.1 p → e.1.length ≤ k.length := by
    intro e he hep
    refine hmax e.1 (hkeys e he) ?_ hep
    rw [addKeys_of_mem he hnodup]
    simp
  rcases (addKeys_eq_some hnodup).mp hk with hmem | ⟨_, hroot⟩
  · rcases hbelow with rfl | ⟨_, hbelow⟩
    · exact absurd rfl (hne _ hmem)
    · exact .inl ⟨k, hmem, hp, hbelow, hlongest⟩
  · have hnil : k = [] := by
      by_contra hk'
      rw [if_neg hk'] at hroot
      cases hroot
    subst hnil
    refine .inr ⟨?_, ?_⟩
    · intro e he hep
      exact hne e he (List.eq_nil_of_length_eq_zero (Nat.le_zero.mp (hlongest e he hep)))
    · exact Prod.ext (Option.some.inj hroot).symm hp.symm

/-- A key after one below it makes a search go wrong: the one for the hidden key
with a separator. -/
theorem not_resolves_of_unordered (hkeys : ∀ e ∈ seq, Below sep [] e.1)
    (hnodup : (seq.map Prod.fst).Nodup)
    (hord : ¬seq.Pairwise fun e f => ¬Below sep f.1 e.1) :
    ∃ e ∈ seq, ¬Resolves sep seq v (e.1 ++ [sep])
      (lookup sep (insertAll sep (.node n v []) seq) (e.1 ++ [sep])) := by
  have hne : ∀ {u : List α}, Below sep [] u → u ≠ [] := by
    rintro u ⟨rest, rfl⟩
    simp
  rcases perfect_leaf (n := n) (v := v).shadowed hkeys
      (fun e he => if_neg (hne (hkeys e he))) hnodup (.inr hord) with
    ⟨u, hkey, hu, hhid⟩
  have humem : u ∈ seq.map Prod.fst :=
    hu.resolve_left fun hroot => hroot (if_neg (hne hkey))
  rcases List.mem_map.mp humem with ⟨e, he, rfl⟩
  refine ⟨e, he, ?_⟩
  have hself : Below sep e.1 (e.1 ++ [sep]) := ⟨[], rfl⟩
  rintro (⟨k, _, hp, hbelow, hmax⟩ | ⟨hnone, _⟩)
  · have hle := hmax e he hself
    have hlt := hbelow.length_lt
    rw [List.length_append, List.length_singleton] at hlt
    exact hhid (List.append_inj hp (by omega)).2.symm
  · exact hnone e he hself

end Sequences

end PathTree

end Toystar.Verified
