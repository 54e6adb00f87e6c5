import Toystar.Fs.TmpfsForm

/-!
# Where a path leads

`path_to_node` against the paths of the tree.  A path that names a node resolves to it,
however the siblings are ordered and whatever their names have in common
(`existing_path_resolves`).  A path that names none resolves to the node of the directory
it is in, or to nothing, except where two names are missing: then it resolves to the node
above (`missing_path_iff`).  A relative path resolves as the absolute one does
(`relative_eq_absolute`), because both come to the same directory with the same rest.
-/

namespace Toystar.Fs

open Toystar.Kernel
open Toystar.Klibc
open Toystar.Memory
open Toystar.Verified

namespace Tmpfs

variable {s : Tmpfs} {c path rest : CStr} {cs ds : List CStr} {p : Option Nat}
  {i j m d fuel : Nat} {r : Descent}

/-! ## Fuel -/

/-- A descent that ends takes no notice of more fuel. -/
theorem descend_succ (h : s.descend fuel p path i = .ok r) :
    s.descend (fuel + 1) p path i = .ok r := by
  induction fuel generalizing p path i with
  | zero => cases h
  | succ fuel ih =>
      cases p with
      | none => exact h
      | some head =>
          rw [descend] at h ⊢
          by_cases hhead : path.headD 0 = 0
          · rw [if_pos hhead] at h ⊢
            exact h
          · rw [if_neg hhead] at h ⊢
            obtain ⟨n, hn, h⟩ := bind_eq_ok.mp h
            obtain ⟨f, hf, h⟩ := bind_eq_ok.mp h
            obtain ⟨same, hsame, h⟩ := bind_eq_ok.mp h
            rw [hn, ok_bind, hf, ok_bind]
            dsimp only
            rw [hsame, ok_bind]
            cases same with
            | false => exact ih h
            | true =>
                obtain ⟨x, hx, h⟩ := bind_eq_ok.mp h
                rw [if_pos rfl, hx, ok_bind]
                split at h
                next hnext => rw [if_pos hnext]; exact ih h
                next hnext =>
                  rw [if_neg hnext]
                  split at h
                  next hend => rw [if_pos hend]; exact h
                  next hend => rw [if_neg hend]; exact ih h

theorem descend_add (h : s.descend fuel p path i = .ok r) (k : Nat) :
    s.descend (fuel + k) p path i = .ok r := by
  induction k with
  | zero => exact h
  | succ k ih => exact descend_succ ih

/-- In a tree every descent ends, whatever the path is. -/
theorem Shape.descend_total (h : s.Shape) {budget : Nat → Nat}
    (hbudget : ∀ i, ∀ j ∈ s.tree.kids i, (s.tree.kids j).length + budget j ≤ budget i)
    {xs : List Nat} (hxs : xs ⊆ s.tree.kids i) (hp : s.Siblings p xs)
    (hfuel : xs.length + budget i < fuel) (path : CStr) (m : Nat) :
    ∃ r, s.descend fuel p path m = .ok r := by
  induction fuel generalizing xs p i path m with
  | zero => omega
  | succ fuel ih =>
      cases xs with
      | nil =>
          obtain rfl : p = none := hp
          exact ⟨_, rfl⟩
      | cons x xs =>
          rw [List.cons_subset] at hxs
          obtain ⟨rfl, hrest⟩ := siblings_cons.mp hp
          obtain ⟨n, f, hn, hf, hget, hname, _⟩ := h.linked.objects (h.inside hxs.1)
          have hnul : 0 ∉ f.name := by
            rw [hname]
            exact h.noNul x
          have hnextOf : s.nextOf (some x) = n.next := by simp [nextOf, hget]
          rw [hnextOf] at hrest
          rw [List.length_cons] at hfuel
          have hnext := ih hxs.2 hrest (by omega) path m
          by_cases hhead : path.headD 0 = 0
          · rw [descend, if_pos hhead]
            exact ⟨_, rfl⟩
          · rw [descend_some hn hf hhead hnul]
            by_cases hpre : f.name.isPrefixOf path
            · have hle : f.name.length ≤ path.length :=
                (List.isPrefixOf_iff_prefix.mp hpre).length_le
              rw [if_pos hpre, CStr.charAt_of_le hle, ok_bind]
              split
              · exact hnext
              · split
                · exact ⟨_, rfl⟩
                · have hkids := hbudget i x hxs.1
                  exact ih (List.Subset.refl _) (h.chain hget) (by omega) _ x
            · rw [if_neg hpre]
              exact hnext

/-- So the descent below any node ends with the fuel that `path_to_node` has. -/
theorem Shape.descend_kids (h : s.Shape) {n : TmpfsNode} (hn : s.nodes[i]? = some n)
    (path : CStr) (m : Nat) :
    ∃ r, s.descend (s.nodes.length + 1) n.children path m = .ok r := by
  have hV : ∀ i, ∀ j ∈ s.tree.kids i, j ∈ Finset.range s.nodes.length := by
    intro i j hj
    exact Finset.mem_range.mpr (h.inside hj)
  obtain ⟨budget, hroot, hbudget⟩ := h.isTree.budget hV
  have hfuel := hroot i
  rw [Finset.card_range] at hfuel
  exact h.descend_total hbudget (List.Subset.refl _) (h.chain hn) (by omega) path m

/-! ## Down a path that exists -/

/-- Past the siblings of other names, to the one of the first name. -/
theorem Shape.descend_sibling (h : s.Shape) {xs : List Nat} (hxs : xs ⊆ s.tree.kids i)
    (hp : s.Siblings p xs) (hc : CStr.IsComponent c)
    (hfirst : xs.find? (fun j => s.nameOf j = c) = some j) {n : TmpfsNode}
    (hn : s.nodes[j]? = some n) (rest : CStr) (m : Nat) :
    ∃ k, ∀ fuel, s.descend (fuel + k) p (c ++ CStr.slash :: rest) m =
      s.descend fuel n.children rest j := by
  induction xs generalizing p with
  | nil => cases hfirst
  | cons x xs ih =>
      rw [List.cons_subset] at hxs
      obtain ⟨rfl, hsiblings⟩ := siblings_cons.mp hp
      obtain ⟨nx, f, hnode, hf, hget, hname, _⟩ := h.linked.objects (h.inside hxs.1)
      have hcomp : CStr.IsComponent f.name := by
        rw [hname]
        exact h.component hxs.1
      by_cases heq : f.name = c
      · rw [List.find?_cons_of_pos (by simpa [← hname] using heq)] at hfirst
        obtain rfl := Option.some.inj hfirst
        rw [hget] at hn
        obtain rfl := Option.some.inj hn
        exact ⟨1, fun fuel => descend_of_eq hnode hf hcomp hc heq⟩
      · rw [List.find?_cons_of_neg (by simpa [← hname] using heq)] at hfirst
        have hnext : s.nextOf (some x) = nx.next := by simp [nextOf, hget]
        rw [hnext] at hsiblings
        obtain ⟨k, hk⟩ := ih hxs.2 hsiblings hfirst
        refine ⟨k + 1, fun fuel => ?_⟩
        have hslash : ∀ x ∈ (CStr.slash :: rest).head?, x = CStr.slash := by
          intro x hx
          exact (Option.some.inj hx).symm
        rw [← hk fuel, ← Nat.add_assoc,
          descend_of_ne hnode hf hcomp hc hslash heq]

/-- Along names that lead to a node, down to its children. -/
theorem Shape.descend_path (h : s.Shape) (hwalk : s.tree.walk i (c :: cs) = (m, []))
    {n : TmpfsNode} (hn : s.nodes[i]? = some n) :
    ∃ nm, s.nodes[m]? = some nm ∧ ∀ rest, ∃ k, ∀ fuel,
      s.descend (fuel + k) n.children (c ++ CStr.joinPath cs ++ CStr.slash :: rest) i =
        s.descend fuel nm.children rest m := by
  induction cs generalizing i c n with
  | nil =>
      cases hc : s.tree.child i c with
      | none =>
          rw [NameTree.walk_of_none hc] at hwalk
          cases hwalk
      | some j =>
          rw [NameTree.walk_of_some hc] at hwalk
          obtain rfl : j = m := congrArg Prod.fst hwalk
          have hj := NameTree.mem_kids_of_child hc
          obtain ⟨nj, _, _, _, hget, _⟩ := h.linked.objects (h.inside hj)
          have hcomp : CStr.IsComponent c := by
            rw [← NameTree.name_of_child hc]
            exact h.component hj
          refine ⟨nj, hget, fun rest => ?_⟩
          have hpath : c ++ CStr.joinPath [] ++ CStr.slash :: rest = c ++ CStr.slash :: rest := by
            simp [CStr.joinPath]
          rw [hpath]
          exact h.descend_sibling (List.Subset.refl _) (h.chain hn) hcomp hc hget rest i
  | cons d cs ih =>
      cases hc : s.tree.child i c with
      | none =>
          rw [NameTree.walk_of_none hc] at hwalk
          cases hwalk
      | some j =>
          rw [NameTree.walk_of_some hc] at hwalk
          have hj := NameTree.mem_kids_of_child hc
          obtain ⟨nj, _, _, _, hget, _⟩ := h.linked.objects (h.inside hj)
          have hcomp : CStr.IsComponent c := by
            rw [← NameTree.name_of_child hc]
            exact h.component hj
          obtain ⟨nm, hnm, hbelow⟩ := ih hwalk hget
          refine ⟨nm, hnm, fun rest => ?_⟩
          obtain ⟨k, hk⟩ := hbelow rest
          obtain ⟨l, hl⟩ := h.descend_sibling (List.Subset.refl _) (h.chain hn) hcomp hc hget
            (d ++ CStr.joinPath cs ++ CStr.slash :: rest) i
          refine ⟨k + l, fun fuel => ?_⟩
          have hpath : c ++ CStr.joinPath (d :: cs) ++ CStr.slash :: rest =
              c ++ CStr.slash :: (d ++ CStr.joinPath cs ++ CStr.slash :: rest) := by
            rw [CStr.joinPath_cons]
            simp
          rw [hpath, ← Nat.add_assoc, hl, hk]

/-- Behind a path that leads to `m`, everything goes on as below `m`. -/
theorem Shape.resolve_path (h : s.Shape) (hwalk : s.tree.walk s.rootTmpfsNode cs = (m, []))
    {root n : TmpfsNode} (hroot : s.nodes[s.rootTmpfsNode]? = some root)
    (hn : s.nodes[m]? = some n) (rest : CStr) :
    s.resolve root.children ((CStr.joinPath cs ++ CStr.slash :: rest).drop 1)
      s.rootTmpfsNode = s.resolve n.children rest m := by
  cases cs with
  | nil =>
      obtain rfl : s.rootTmpfsNode = m := congrArg Prod.fst hwalk
      rw [hroot] at hn
      obtain rfl := Option.some.inj hn
      rfl
  | cons c cs =>
      obtain ⟨nm, hnm, hbelow⟩ := h.descend_path hwalk hroot
      rw [hn] at hnm
      obtain rfl := Option.some.inj hnm
      obtain ⟨k, hk⟩ := hbelow rest
      have hpath : (CStr.joinPath (c :: cs) ++ CStr.slash :: rest).drop 1 =
          c ++ CStr.joinPath cs ++ CStr.slash :: rest := by
        rw [CStr.joinPath_cons]
        rfl
      obtain ⟨r, hr⟩ := h.descend_kids hroot (c ++ CStr.joinPath cs ++ CStr.slash :: rest)
        s.rootTmpfsNode
      have hsame := descend_add hr k
      rw [hk] at hsame
      rw [hpath, resolve, resolve, hr, hsame]

theorem headD_joinPath (cs : List CStr) (rest : CStr) :
    (CStr.joinPath cs ++ CStr.slash :: rest).headD 0 = CStr.slash := by
  cases cs with
  | nil => rfl
  | cons c cs =>
      rw [CStr.joinPath_cons]
      rfl

/-- `path_to_node` behind a path that leads to `m`. -/
theorem Shape.pathToNode_behind (h : s.Shape)
    (hwalk : s.tree.walk s.rootTmpfsNode cs = (m, [])) {n : TmpfsNode}
    (hn : s.nodes[m]? = some n) (rest : CStr) (currDir : Option Nat) :
    s.pathToNode (CStr.joinPath cs ++ CStr.slash :: rest) currDir =
      s.resolve n.children rest m := by
  obtain ⟨root, _, hroot, _, hget, _⟩ := h.linked.objects h.root
  unfold pathToNode
  rw [if_neg (not_not_intro (headD_joinPath cs rest)), hroot, ok_bind]
  exact h.resolve_path hwalk hget hn rest

/-- Nothing left is the node itself. -/
theorem resolve_nil (p : Option Nat) (m : Nat) : s.resolve p [] m = .ok (some m) := by
  cases p with
  | none => rfl
  | some head => rfl

/-! ## Paths that exist -/

theorem Shape.lt_of_walk (h : s.Shape) {rest : List CStr}
    (hwalk : s.tree.walk s.rootTmpfsNode cs = (m, rest)) : m < s.nodes.length := by
  cases NameTree.walk_mem hwalk with
  | inl hroot =>
      rw [hroot]
      exact h.root
  | inr hkid =>
      obtain ⟨a, ha⟩ := hkid
      exact h.inside ha

/-- A path that leads to a node resolves to it, with or without a slash at the end. -/
theorem existing_path_resolves (h : s.Shape) (hdist : s.tree.Distinct)
    (hcs : ∀ c ∈ cs, CStr.IsComponent c) (hleads : s.tree.Leads s.rootTmpfsNode cs m)
    (trailing : Bool) (hpath : cs ≠ [] ∨ trailing = true) (currDir : Option Nat) :
    s.pathToNode (CStr.joinPath cs ++ if trailing then [CStr.slash] else []) currDir =
      .ok (some m) := by
  have hwalk := hdist.walk_of_leads hleads
  cases trailing with
  | true =>
      have hlt := h.lt_of_walk hwalk
      rw [if_pos rfl, h.pathToNode_behind hwalk (List.getElem?_eq_getElem hlt)]
      exact resolve_nil _ m
  | false =>
      have hne : cs ≠ [] := hpath.resolve_right (by decide)
      rw [if_neg (by decide), List.append_nil, h.pathToNode_eq hne hcs, nearest, hwalk]
      rfl

/-- The directories `/ab` and `/a`, the later one first, and the file `/ab/c`. -/
theorem siblings_run :
    ∃ s, Run HarmlessCall sixteenPages
        [.mkdir none [[97, 98]], .create none [[97, 98], [99]] CREATE, .mkdir none [[97]]] s ∧
      s.tree.kids 0 = [3, 1] ∧ s.nameOf 3 = [97] ∧ s.parentOf s.rootTmpfsNode = none ∧
      s.tree.walk s.rootTmpfsNode [[97, 98], [99]] = (2, []) := by
  refine ⟨_, .cons ⟨⟨⟨by simp [TreeCall.workingDir], by simp [TreeCall.cs], ?_, trivial⟩, rfl⟩,
      .inr (.inr rfl)⟩
    (.cons ⟨⟨⟨by simp [TreeCall.workingDir], by simp [TreeCall.cs], ?_, ?_⟩, rfl⟩,
      .inr (.inl rfl)⟩
    (.cons ⟨⟨⟨by simp [TreeCall.workingDir], by simp [TreeCall.cs], ?_, trivial⟩, rfl⟩,
      .inr (.inr rfl)⟩ (.nil _))), rfl, rfl, rfl, rfl⟩
  · simp [TreeCall.cs, CStr.IsComponent, CStr.slash]
  · simp [TreeCall.cs, CStr.IsComponent, CStr.slash]
  · exact (by decide : CREATE &&& CREATE ≠ 0)
  · simp [TreeCall.cs, CStr.IsComponent, CStr.slash]

/-- `/ab/c` is found, though its first name begins with that of the sibling `/a`, which
comes first. -/
theorem existing_path_resolves_sibling :
    ∃ s, Run HarmlessCall sixteenPages
        [.mkdir none [[97, 98]], .create none [[97, 98], [99]] CREATE, .mkdir none [[97]]] s ∧
      s.tree.kids 0 = [3, 1] ∧ s.nameOf 3 = [97] ∧
      s.pathToNode (CStr.joinPath [[97, 98], [99]] ++ []) none = .ok (some 2) := by
  obtain ⟨s, hrun, hkids, hname, _, hwalk⟩ := siblings_run
  obtain ⟨hshape, hform⟩ := harmless_run hrun
  refine ⟨s, hrun, hkids, hname, ?_⟩
  exact existing_path_resolves hshape (hshape.wellFormed_iff.mp hform).1
    (by simp [CStr.IsComponent, CStr.slash]) (NameTree.leads_of_walk hwalk) false
    (.inl (List.cons_ne_nil _ _)) none

/-! ## Paths that do not exist -/

/-- What a path that names no node should resolve to: the node of the directory `ds` it
is in, or nothing. -/
def ResolvesToParent (s : Tmpfs) (ds : List CStr) (r : Option Nat) : Prop :=
  (∃ p, s.tree.Leads s.rootTmpfsNode ds p ∧ r = some p) ∨
    (∀ p, ¬s.tree.Leads s.rootTmpfsNode ds p) ∧ r = none

/-- The directory `ds` does not exist, and the one it is in does. -/
def GrandparentOnly (s : Tmpfs) (ds : List CStr) : Prop :=
  (∀ p, ¬s.tree.Leads s.rootTmpfsNode ds p) ∧
    ∃ es e g, ds = es ++ [e] ∧ s.tree.Leads s.rootTmpfsNode es g

/-- A path that names no node resolves as it should exactly when not only the directory
above its own exists. -/
theorem missing_path_iff (h : s.Shape) (hdist : s.tree.Distinct) {b : CStr}
    (hcs : ∀ c ∈ ds ++ [b], CStr.IsComponent c)
    (hmissing : ∀ m, ¬s.tree.Leads s.rootTmpfsNode (ds ++ [b]) m) (currDir : Option Nat) :
    (∃ r, s.pathToNode (CStr.joinPath (ds ++ [b])) currDir = .ok r ∧
      s.ResolvesToParent ds r) ↔ ¬s.GrandparentOnly ds := by
  rw [h.pathToNode_eq (by simp) hcs]
  obtain ⟨⟨m, rest⟩, hwalk⟩ : ∃ r, s.tree.walk s.rootTmpfsNode (ds ++ [b]) = r := ⟨_, rfl⟩
  have hnear : s.nearest s.rootTmpfsNode (ds ++ [b]) =
      if rest.length ≤ 2 then some m else none := by
    rw [nearest, hwalk]
  obtain ⟨es, hes, hbefore, hnone⟩ := NameTree.walk_cases hwalk
  have hleads : s.tree.Leads s.rootTmpfsNode es m := NameTree.leads_of_walk hbefore
  cases rest with
  | nil => exact absurd (NameTree.leads_of_walk hwalk) (hmissing m)
  | cons x rest =>
      have hx : s.tree.child m x = none := hnone x rfl
      have hastray : ∀ more p, ¬s.tree.Leads s.rootTmpfsNode (es ++ x :: more) p :=
        fun _ p => hdist.not_leads hbefore hx p
      cases rest with
      | nil =>
          -- the parent is there
          obtain ⟨rfl, _⟩ := List.append_inj' hes rfl
          rw [hnear, if_pos (by simp)]
          refine iff_of_true ⟨some m, rfl, .inl ⟨m, hleads, rfl⟩⟩ ?_
          intro hgrand
          exact hgrand.1 m hleads
      | cons y rest =>
          have hds : ds = es ++ x :: (y :: rest).dropLast := by
            have hinit := congrArg List.dropLast hes
            rw [List.dropLast_concat, List.dropLast_append_cons, List.dropLast_cons_cons] at hinit
            exact hinit
          have hno : ∀ p, ¬s.tree.Leads s.rootTmpfsNode ds p := by
            rw [hds]
            exact hastray _
          cases rest with
          | nil =>
              -- only the directory above it is
              rw [hnear, if_pos (by simp)]
              refine iff_of_false ?_ (not_not_intro ⟨hno, es, x, m, hds, hleads⟩)
              rintro ⟨r, hr, hparent⟩
              obtain rfl := Except.ok.inj hr
              cases hparent with
              | inl hthere => exact hno _ hthere.choose_spec.1
              | inr hnothing => cases hnothing.2
          | cons z rest =>
              rw [hnear, if_neg (by simp)]
              refine iff_of_true ⟨none, rfl, .inr ⟨hno, rfl⟩⟩ ?_
              rintro ⟨_, es', e, g, hds', hg⟩
              have hinit := congrArg List.dropLast (hds.symm.trans hds')
              rw [List.dropLast_concat, List.dropLast_append_cons, List.dropLast_cons_cons,
                List.dropLast_cons_cons] at hinit
              rw [← hinit] at hg
              exact hastray _ _ hg

/-- In the tree of the constructor no path leads anywhere. -/
theorem not_leads_init (pmm : Pmm) (mem : ByteMem) (tmpfs : Nat) :
    ¬(init pmm mem tmpfs).tree.Leads i (c :: cs) m := by
  intro hleads
  cases hleads with
  | cons hj _ =>
      rw [kids_init] at hj
      cases hj

/-- Without any node below the root, `/a` resolves to the root. -/
theorem missing_path_iff_root :
    (∃ r, sixteenPages.pathToNode (CStr.joinPath ([] ++ [[97]])) none = .ok r ∧
      sixteenPages.ResolvesToParent [] r) ↔ ¬sixteenPages.GrandparentOnly [] := by
  obtain ⟨hshape, hform⟩ := harmless_run (.nil sixteenPages)
  have hmissing : ∀ m, ¬sixteenPages.tree.Leads sixteenPages.rootTmpfsNode ([] ++ [[97]]) m :=
    fun _ => not_leads_init _ _ _
  exact missing_path_iff hshape (hshape.wellFormed_iff.mp hform).1
    (by simp [CStr.IsComponent, CStr.slash]) hmissing none

/-- Nor is there `/x`, yet `/x/a` resolves to the root. -/
theorem missing_path_grandparent :
    sixteenPages.Shape ∧ sixteenPages.tree.Distinct ∧
      (∀ c ∈ [[120], [97]], CStr.IsComponent c) ∧
      (∀ m, ¬sixteenPages.tree.Leads sixteenPages.rootTmpfsNode [[120], [97]] m) ∧
      (∀ m, ¬sixteenPages.tree.Leads sixteenPages.rootTmpfsNode [[120]] m) ∧
      sixteenPages.pathToNode (CStr.joinPath [[120], [97]]) none =
        .ok (some sixteenPages.rootTmpfsNode) := by
  obtain ⟨hshape, hform⟩ := harmless_run (.nil sixteenPages)
  exact ⟨hshape, (hshape.wellFormed_iff.mp hform).1, by simp [CStr.IsComponent, CStr.slash],
    fun _ => not_leads_init _ _ _, fun _ => not_leads_init _ _ _, rfl⟩

/-! ## Relative paths -/

end Tmpfs

/-- What a relative path may begin with. -/
inductive Dots
  | here
  | up
deriving DecidableEq

namespace Dots

/-- `"./"` and `"../"`. -/
def str : Dots → CStr
  | here => [CStr.dot, CStr.slash]
  | up => [CStr.dot, CStr.dot, CStr.slash]

/-- A path that begins with `ps`. -/
def path (ps : List Dots) (rest : CStr) : CStr := ps.flatMap str ++ rest

/-- The steps up. -/
def ups (ps : List Dots) : Nat := ps.count up

theorem path_here (ps : List Dots) (rest : CStr) :
    path (here :: ps) rest = CStr.dot :: CStr.slash :: path ps rest := by
  rw [path, List.flatMap_cons]
  rfl

theorem path_up (ps : List Dots) (rest : CStr) :
    path (up :: ps) rest = CStr.dot :: CStr.dot :: CStr.slash :: path ps rest := by
  rw [path, List.flatMap_cons]
  rfl

/-- Such a path is not absolute. -/
theorem headD_path (ps : List Dots) (hslash : rest.headD 0 ≠ CStr.slash) :
    (path ps rest).headD 0 ≠ CStr.slash := by
  cases ps with
  | nil => exact hslash
  | cons p ps =>
      cases p with
      | here =>
          rw [path_here]
          exact (by decide : CStr.dot ≠ CStr.slash)
      | up =>
          rw [path_up]
          exact (by decide : CStr.dot ≠ CStr.slash)

end Dots

namespace Tmpfs

variable {s : Tmpfs} {rest : CStr} {cs ds : List CStr} {d m : Nat}

theorem skipDots_of_ne (hdot : rest.headD 0 ≠ CStr.dot) :
    s.skipDots rest (some d) = .ok (some (rest, some d)) := by
  cases rest with
  | nil => rfl
  | cons c rest =>
      unfold skipDots
      exact if_pos hdot

theorem skipDots_null (path : CStr) : s.skipDots path none = .ok (some (path, none)) := by
  cases path with
  | nil => rfl
  | cons c path => rfl

theorem skipDots_here (path : CStr) :
    s.skipDots (CStr.dot :: CStr.slash :: path) (some d) = s.skipDots path (some d) := by
  conv_lhs => unfold skipDots
  rw [if_neg (not_not_intro rfl)]
  rfl

theorem skipDots_up {n : TmpfsNode} (hn : s.node d = .ok n) (path : CStr) :
    s.skipDots (CStr.dot :: CStr.dot :: CStr.slash :: path) (some d) =
      s.skipDots path n.parent := by
  conv_lhs => unfold skipDots
  rw [if_neg (not_not_intro rfl)]
  dsimp only
  rw [if_pos rfl, if_neg (not_not_intro rfl), hn]

/-- The `parent` of each node is the node it is a child of, and null at the root. -/
structure Parents (s : Tmpfs) : Prop where
  kid : ∀ i, ∀ j ∈ s.tree.kids i, s.parentOf j = some i
  root : s.parentOf s.rootTmpfsNode = none

/-- The dots lead as many steps up as there are, or to null. -/
theorem Shape.skipDots_path (h : s.Shape) (hparents : s.Parents)
    (hwalk : s.tree.walk s.rootTmpfsNode ds = (d, [])) (ps : List Dots)
    (hdot : rest.headD 0 ≠ CStr.dot) :
    (Dots.ups ps ≤ ds.length → ∃ a,
      s.tree.walk s.rootTmpfsNode (ds.take (ds.length - Dots.ups ps)) = (a, []) ∧
      s.skipDots (Dots.path ps rest) (some d) = .ok (some (rest, some a))) ∧
    (ds.length < Dots.ups ps → ∃ path,
      s.skipDots (Dots.path ps rest) (some d) = .ok (some (path, none))) := by
  induction ps generalizing d ds with
  | nil =>
      constructor
      · intro _
        refine ⟨d, ?_, skipDots_of_ne hdot⟩
        rw [Dots.ups, List.count_nil, Nat.sub_zero, List.take_length]
        exact hwalk
      · intro hlt
        exact absurd hlt (Nat.not_lt_zero _)
  | cons p ps ih =>
      cases p with
      | here =>
          have hups : Dots.ups (.here :: ps) = Dots.ups ps := List.count_cons_of_ne (by decide)
          rw [hups, Dots.path_here, skipDots_here]
          exact ih hwalk
      | up =>
          have hups : Dots.ups (.up :: ps) = Dots.ups ps + 1 := List.count_cons_self
          obtain ⟨n, _, hn, _, hget, _⟩ := h.linked.objects (h.lt_of_walk hwalk)
          have hparent : n.parent = s.parentOf d := by
            rw [parentOf, hget]
            rfl
          rw [hups, Dots.path_up, skipDots_up hn, hparent]
          cases ds using List.reverseRecOn with
          | nil =>
              -- the root has no parent
              obtain rfl : s.rootTmpfsNode = d := congrArg Prod.fst hwalk
              rw [hparents.root, skipDots_null]
              constructor
              · intro hle
                exact absurd hle (Nat.not_succ_le_zero _)
              · intro _
                exact ⟨_, rfl⟩
          | append_singleton ds b =>
              obtain ⟨q, hq, hchild⟩ := NameTree.walk_concat hwalk
              have hsub : (ds ++ [b]).length - (Dots.ups ps + 1) = ds.length - Dots.ups ps := by
                rw [List.length_append, List.length_singleton]
                omega
              have htake : (ds ++ [b]).take (ds.length - Dots.ups ps) =
                  ds.take (ds.length - Dots.ups ps) :=
                List.take_append_of_le_length (Nat.sub_le _ _)
              rw [hparents.kid q d (NameTree.mem_kids_of_child hchild), hsub, htake,
                List.length_append, List.length_singleton, Nat.succ_le_succ_iff,
                Nat.succ_lt_succ_iff]
              exact ih hq

/-- A relative path resolves like the absolute one from the ancestor it climbs to, and to
nothing where it climbs too high. -/
theorem relative_eq_absolute (h : s.Shape) (hdist : s.tree.Distinct) (hparents : s.Parents)
    (hd : ∃ ds, s.tree.Leads s.rootTmpfsNode ds d) (ps : List Dots)
    (hdot : rest.headD 0 ≠ CStr.dot) (hslash : rest.headD 0 ≠ CStr.slash) :
    (∀ as a cs, s.tree.Leads s.rootTmpfsNode as a → s.tree.Leads a cs d →
      cs.length = Dots.ups ps →
      s.pathToNode (Dots.path ps rest) (some d) =
        s.pathToNode (CStr.joinPath as ++ CStr.slash :: rest) none) ∧
    ((∀ a cs, s.tree.Leads a cs d → cs.length ≠ Dots.ups ps) →
      s.pathToNode (Dots.path ps rest) (some d) = .ok none) := by
  have hrelative : (Dots.path ps rest).headD 0 ≠ CStr.slash := Dots.headD_path ps hslash
  constructor
  · intro as a cs has hcs hlen
    have hbefore := hdist.walk_of_leads has
    have hwalk : s.tree.walk s.rootTmpfsNode (as ++ cs) = (d, []) := by
      rw [NameTree.walk_append hbefore]
      exact hdist.walk_of_leads hcs
    have hsum : (as ++ cs).length - Dots.ups ps = as.length := by
      rw [List.length_append]
      omega
    have hle : Dots.ups ps ≤ (as ++ cs).length := by
      rw [List.length_append]
      omega
    obtain ⟨a', hup, hskip⟩ := (h.skipDots_path hparents hwalk ps hdot).1 hle
    rw [hsum, List.take_left, hbefore] at hup
    obtain rfl : a = a' := congrArg Prod.fst hup
    obtain ⟨n, _, hn, _, hget, _⟩ := h.linked.objects (h.lt_of_walk hbefore)
    rw [h.pathToNode_behind hbefore hget]
    unfold pathToNode
    rw [if_pos hrelative]
    dsimp only
    rw [hskip, ok_bind]
    dsimp only
    rw [hn, ok_bind]
  · intro hhigh
    obtain ⟨ds, hds⟩ := hd
    have hwalk := hdist.walk_of_leads hds
    have hlt : ds.length < Dots.ups ps := by
      by_contra hle
      rw [Nat.not_lt] at hle
      obtain ⟨a, hup, _⟩ := (h.skipDots_path hparents hwalk ps hdot).1 hle
      have hrest : s.tree.walk a (ds.drop (ds.length - Dots.ups ps)) = (d, []) := by
        rw [← NameTree.walk_append hup, List.take_append_drop]
        exact hwalk
      refine hhigh a _ (NameTree.leads_of_walk hrest) ?_
      rw [List.length_drop]
      omega
    obtain ⟨path, hskip⟩ := (h.skipDots_path hparents hwalk ps hdot).2 hlt
    unfold pathToNode
    rw [if_pos hrelative]
    dsimp only
    rw [hskip, ok_bind]
    rfl

/-- From `/ab/c`, `.././../a` is `/a`. -/
theorem relative_eq_absolute_up :
    ∃ s, Run HarmlessCall sixteenPages
        [.mkdir none [[97, 98]], .create none [[97, 98], [99]] CREATE, .mkdir none [[97]]] s ∧
      s.pathToNode (Dots.path [.up, .here, .up] [97]) (some 2) =
        s.pathToNode (CStr.joinPath [] ++ CStr.slash :: [97]) none := by
  obtain ⟨s, hrun, _, _, hroot, hwalk⟩ := siblings_run
  obtain ⟨hshape, hform⟩ := harmless_run hrun
  obtain ⟨hdist, _, hkid⟩ := hshape.wellFormed_iff.mp hform
  have hleads := NameTree.leads_of_walk hwalk
  exact ⟨s, hrun, (relative_eq_absolute hshape hdist ⟨hkid, hroot⟩ ⟨_, hleads⟩
    [.up, .here, .up] (by decide) (by decide)).1 [] _ _ (.nil _) hleads rfl⟩

end Tmpfs

end Toystar.Fs
