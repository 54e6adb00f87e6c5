import Toystar.Fs.Vfs
import Toystar.Verified.Run

/-!
# Mount resolution

On C strings the two walks of the mount table are the search and the insertion
of `PathTree` with `/` as separator, so that the order of the mounts decides:
paths resolve to the longest target above them, whatever the path, exactly when
no target was mounted after a target below it (`mounts_longest_prefix_iff`).
-/

namespace Toystar.Fs

open Toystar.Kernel
open Toystar.Klibc
open Toystar.Verified

/-- No name of the tree has a NUL inside. -/
inductive NulFree : MountNode → Prop
  | node {name : CStr} {fs : Nat} {children : List MountNode} (hname : 0 ∉ name)
      (hchildren : ∀ c ∈ children, NulFree c) : NulFree (.node name fs children)

theorem NulFree.name {t : MountNode} (h : NulFree t) : 0 ∉ t.name := by
  cases h with
  | node hname _ => exact hname

theorem NulFree.insert {t : MountNode} {str : CStr} {fs : Nat} (h : NulFree t)
    (hstr : 0 ∉ str) : NulFree (t.insert CStr.slash str fs) := by
  induction h generalizing str with
  | @node name v children hname hchildren ih =>
      rcases PathTree.insert_cases name v children str fs with
        ⟨_, hins⟩ | ⟨pre, c, post, rest, rfl, _, _, rfl, hins⟩
      · rw [hins]
        refine .node hname ?_
        intro d hd
        rcases List.mem_cons.mp hd with rfl | hd
        · exact .node hstr (by simp)
        · exact hchildren d hd
      · rw [hins]
        refine .node hname ?_
        intro d hd
        rw [List.mem_append, List.mem_cons] at hd
        rcases hd with hd | rfl | hd
        · exact hchildren d (by simp [hd])
        · refine ih c (by simp) fun h0 => hstr ?_
          exact List.mem_append_right _ h0
        · exact hchildren d (by simp [hd])

/-! ## The walks -/

/-- The character behind a name that matched. -/
theorem charAt_prefix {name path : CStr} (hpre : name.isPrefixOf path = true) :
    CStr.charAt path name.length = .ok (path[name.length]?.getD 0) :=
  CStr.charAt_of_le (List.isPrefixOf_iff_prefix.mp hpre).length_le

/-- The character behind the name tells a path below it. -/
theorem getD_eq_slash {o : Option UInt8} : o.getD 0 = CStr.slash ↔ o = some CStr.slash := by
  cases o with
  | none => simp [CStr.slash]
  | some c => simp

/-- The search of `get_absolute_path`. -/
theorem Vfs.pathBelow_eq {t : MountNode} (h : NulFree t) (p : CStr) :
    Vfs.pathBelow t p =
      .ok ⟨(t.lookup CStr.slash p).2, (t.lookup CStr.slash p).1⟩ := by
  induction h generalizing p with
  | @node name fs children hname hchildren ih =>
      have hamong : ∀ cs : List MountNode, (∀ c ∈ cs, c ∈ children) →
          Vfs.pathAmong cs p =
            .ok ((PathTree.lookupList CStr.slash cs p).map fun r => ⟨r.2, r.1⟩) := by
        intro cs hcs
        induction cs with
        | nil => simp [Vfs.pathAmong, PathTree.lookupList]
        | cons c cs ihcs =>
            have hc := (hchildren c (hcs c (by simp))).name
            have hrest := ihcs fun d hd => hcs d (by simp [hd])
            rw [Vfs.pathAmong, CStr.strncmp_eq hc, ok_bind, CStr.strlen_eq hc,
              PathTree.lookupList]
            by_cases hpre : c.name.isPrefixOf p = true
            · rw [if_pos hpre, charAt_prefix hpre, ok_bind]
              by_cases hsep : p[c.name.length]? = some CStr.slash
              · have hbelow : isBelow CStr.slash c.name p = true := by
                  simp [isBelow, hpre, hsep]
                rw [hsep, if_neg (by simp), if_pos hbelow, ih c (hcs c (by simp)) _]
                rfl
              · have hbelow : ¬isBelow CStr.slash c.name p = true := by
                  simp [isBelow, hsep]
                rw [if_pos (by rwa [ne_eq, getD_eq_slash]), if_neg hbelow, hrest]
            · have hbelow : ¬isBelow CStr.slash c.name p = true := by
                simp [isBelow, hpre]
              rw [if_neg hpre, if_neg hbelow, hrest]
      rw [Vfs.pathBelow, hamong children fun c hc => hc, ok_bind, PathTree.lookup]
      cases PathTree.lookupList CStr.slash children p with
      | none => rfl
      | some r => rfl

theorem getD_eq_zero {str : CStr} (hstr : 0 ∉ str) (i : Nat) :
    str[i]?.getD 0 = 0 ↔ str[i]? = none := by
  cases hget : str[i]? with
  | none => simp
  | some c =>
      have hc : c ≠ 0 := fun h0 => hstr (h0 ▸ List.mem_of_getElem? hget)
      simp [hc]

/-- The insertion of `mount`. -/
theorem Vfs.mountBelow_eq {t : MountNode} (h : NulFree t) {str : CStr} (hstr : 0 ∉ str)
    (fs : Nat) : Vfs.mountBelow t str fs = .ok (t.insert CStr.slash str fs) := by
  induction h generalizing str with
  | @node name v children hname hchildren ih =>
      have hamong : ∀ cs : List MountNode, (∀ c ∈ cs, c ∈ children) →
          Vfs.mountAmong cs str fs =
            .ok (PathTree.insertList CStr.slash cs str fs) := by
        intro cs hcs
        by_cases hnil : str = []
        · rw [PathTree.insertList_none (.inl hnil), hnil]
          cases cs with
          | nil => rw [Vfs.mountAmong]
          | cons c cs => simp [Vfs.mountAmong, CStr.charAt, pure, Except.pure]
        · induction cs with
          | nil => simp [Vfs.mountAmong, PathTree.insertList]
          | cons c cs ihcs =>
              have hc := (hchildren c (hcs c (by simp))).name
              have hrest := ihcs fun d hd => hcs d (by simp [hd])
              have hfirst : str[0]?.getD 0 ≠ 0 := by
                rw [ne_eq, getD_eq_zero hstr, List.getElem?_eq_none_iff]
                exact fun hlen => hnil (List.eq_nil_of_length_eq_zero (by omega))
              rw [Vfs.mountAmong, CStr.charAt_of_le (Nat.zero_le _), ok_bind,
                if_neg hfirst, CStr.strncmp_eq hc, ok_bind, CStr.strlen_eq hc,
                PathTree.insertList]
              by_cases hpre : c.name.isPrefixOf str = true
              · have hgoOn : (str[c.name.length]?.getD 0 ≠ CStr.slash ∧
                    str[c.name.length]?.getD 0 ≠ 0) ↔
                    ¬(str[c.name.length]? = some CStr.slash ∨
                      str[c.name.length]? = none) := by
                  rw [ne_eq, ne_eq, getD_eq_slash, getD_eq_zero hstr, not_or]
                rw [if_pos hpre, charAt_prefix hpre, ok_bind]
                by_cases hsep : str[c.name.length]? = some CStr.slash ∨
                    str[c.name.length]? = none
                · have hwithin : isWithin CStr.slash c.name str = true := by
                    simp only [isWithin, hpre, Bool.true_and, Bool.or_eq_true,
                      decide_eq_true_eq]
                    exact hsep
                  have hdrop : 0 ∉ str.drop c.name.length :=
                    fun h0 => hstr (List.mem_of_mem_drop h0)
                  rw [if_neg (fun hg => hgoOn.mp hg hsep), if_pos ⟨hnil, hwithin⟩,
                    ih c (hcs c (by simp)) hdrop]
                  rfl
                · have hwithin : ¬isWithin CStr.slash c.name str = true := by
                    simp only [isWithin, hpre, Bool.true_and, Bool.or_eq_true,
                      decide_eq_true_eq]
                    exact hsep
                  rw [if_pos (hgoOn.mpr hsep), if_neg (fun hw => hwithin hw.2), hrest]
                  rfl
              · have hwithin : ¬isWithin CStr.slash c.name str = true := by
                  simp [isWithin, hpre]
                rw [if_neg hpre, if_neg (fun hw => hwithin hw.2), hrest]
                rfl
      rw [Vfs.mountBelow, hamong children fun c hc => hc, ok_bind, PathTree.insert]
      cases PathTree.insertList CStr.slash children str fs with
      | none => rfl
      | some cs => rfl

/-! ## Sequences of mounts -/

/-- A call of `mount` and the filesystem its source names. -/
structure MountCall where
  source : CStr
  target : CStr
  fs : Nat

/-- A call that succeeds. -/
def MountStep (v : Vfs) (c : MountCall) (v' : Vfs) : Prop :=
  Vfs.findFs c.source v.fses 0 = .ok (some c.fs) ∧
    v.mount c.source c.target = .ok (true, v')

/-- A target other than the root: an absolute path of components. -/
def IsTarget (t : CStr) : Prop :=
  ∃ cs, cs ≠ [] ∧ (∀ c ∈ cs, CStr.IsComponent c) ∧ t = CStr.joinPath cs

theorem IsTarget.below_nil {t : CStr} (h : IsTarget t) : Below CStr.slash [] t := by
  rcases h with ⟨cs, hne, _, rfl⟩
  cases cs with
  | nil => exact absurd rfl hne
  | cons c cs => exact ⟨c ++ CStr.joinPath cs, by simp [CStr.joinPath]⟩

theorem IsTarget.nulFree {t : CStr} (h : IsTarget t) : 0 ∉ t := by
  rcases h with ⟨cs, _, hcs, rfl⟩
  exact CStr.zero_notMem_joinPath hcs

/-- The target of a call with its filesystem. -/
def MountCall.key (c : MountCall) : CStr × Nat := (c.target, c.fs)

/-- A mount below the root is an insertion. -/
theorem MountStep.tree {v v' : Vfs} {c : MountCall} {t : MountNode}
    (h : MountStep v c v') (hroot : v.rootNode = some t) (ht : NulFree t)
    (hc : 0 ∉ c.target) : v'.rootNode = some (t.insert CStr.slash c.target c.fs) := by
  rcases h with ⟨hfs, hret⟩
  simp only [Vfs.mount, hfs, ok_bind, hroot, Vfs.mountBelow_eq ht hc] at hret
  cases hret
  rfl

theorem tree_of_run {v v' : Vfs} {calls : List MountCall} {t : MountNode}
    (hrun : Run MountStep v calls v') (hroot : v.rootNode = some t) (ht : NulFree t)
    (hcalls : ∀ c ∈ calls, 0 ∉ c.target) :
    v'.rootNode = some (t.insertAll CStr.slash (calls.map MountCall.key)) ∧
      NulFree (t.insertAll CStr.slash (calls.map MountCall.key)) := by
  induction hrun generalizing t with
  | nil _ => exact ⟨hroot, ht⟩
  | @cons _ _ _ c calls hstep _ ih =>
      have hc := hcalls c (by simp)
      exact ih (hstep.tree hroot ht hc) (ht.insert hc) fun d hd => hcalls d (by simp [hd])

/-- Every absolute path resolves to the filesystem of the longest target above it, if
and only if no target was mounted after a target below it. -/
theorem mounts_longest_prefix_iff {fses : List CStr} {root : MountCall}
    {calls : List MountCall} {v : Vfs}
    (hrun : Run MountStep ⟨fses, none⟩ (root :: calls) v)
    (hroot : root.target = [CStr.slash]) (htargets : ∀ c ∈ calls, IsTarget c.target)
    (hdistinct : (calls.map MountCall.target).Nodup) :
    (∀ p : CStr, Below CStr.slash [] p → 0 ∉ p →
      ∃ path, v.getAbsolutePath p = .ok path ∧
        PathTree.Resolves CStr.slash (calls.map MountCall.key) root.fs p
          (path.fs, path.fsPath)) ↔
    calls.Pairwise fun c d => ¬Below CStr.slash d.target c.target := by
  have hkeys : ∀ e ∈ calls.map MountCall.key, Below CStr.slash [] e.1 := by
    intro e he
    rcases List.mem_map.mp he with ⟨c, hc, rfl⟩
    exact (htargets c hc).below_nil
  have hnodup : ((calls.map MountCall.key).map Prod.fst).Nodup := by
    rw [List.map_map]
    exact hdistinct
  have hordered : (calls.map MountCall.key).Pairwise (fun e f => ¬Below CStr.slash f.1 e.1) ↔
      calls.Pairwise fun c d => ¬Below CStr.slash d.target c.target := List.pairwise_map
  have hlook : ∀ p, v.getAbsolutePath p = .ok
      ⟨(PathTree.lookup CStr.slash ((PathTree.node [CStr.slash] root.fs []).insertAll
          CStr.slash (calls.map MountCall.key)) p).2,
        (PathTree.lookup CStr.slash ((PathTree.node [CStr.slash] root.fs []).insertAll
          CStr.slash (calls.map MountCall.key)) p).1⟩ := by
    intro p
    cases hrun with
    | @cons _ v₁ _ _ _ hstep hrest =>
        have hfirst : v₁.rootNode = some (.node [CStr.slash] root.fs []) := by
          rcases hstep with ⟨hfs, hret⟩
          simp only [Vfs.mount, hfs, ok_bind, hroot] at hret
          cases hret
          rfl
        rcases tree_of_run hrest hfirst (.node (by decide) (by simp))
            fun c hc => (htargets c hc).nulFree with ⟨hv, hfree⟩
        simp only [Vfs.getAbsolutePath, hv, Vfs.pathBelow_eq hfree]
  rw [← hordered]
  constructor
  · intro hall
    by_contra hord
    rcases PathTree.not_resolves_of_unordered (n := [CStr.slash]) (v := root.fs) hkeys hnodup
      hord with ⟨e, he, hwrong⟩
    have hkey := hkeys e he
    have hfree : 0 ∉ e.1 ++ [CStr.slash] := by
      rcases List.mem_map.mp he with ⟨c, hc, rfl⟩
      rw [List.mem_append, not_or]
      exact ⟨(htargets c hc).nulFree, by decide⟩
    have habs : Below CStr.slash [] (e.1 ++ [CStr.slash]) := by
      rcases hkey with ⟨rest, hrest⟩
      exact ⟨rest ++ [CStr.slash], by rw [hrest]; simp⟩
    rcases hall _ habs hfree with ⟨path, hpath, hres⟩
    rw [hlook] at hpath
    cases hpath
    exact hwrong hres
  · intro hord p _ _
    exact ⟨_, hlook p, PathTree.resolves_of_ordered hkeys hnodup hord p⟩

/-- `"a"`, `"b"` and `"x"` as components. -/
theorem isComponent_letter : ∀ c ∈ ([[97], [98], [120]] : List CStr),
    CStr.IsComponent c := by
  intro c hc
  simp only [List.mem_cons, List.not_mem_nil, or_false] at hc
  rcases hc with rfl | rfl | rfl <;> exact ⟨by decide, by decide, by decide⟩

/-- `/a` and then `/a/b`, from filesystems named `a`, `b` and `x`. -/
theorem mounts_longest_prefix_iff_in_order :
    ∃ (v : Vfs) (path : Path), v.getAbsolutePath [47, 97, 47, 98, 47, 120] = .ok path ∧
      PathTree.Resolves CStr.slash [([47, 97], 1), ([47, 97, 47, 98], 2)] 0
        [47, 97, 47, 98, 47, 120] (path.fs, path.fsPath) := by
  have hrun : Run MountStep ⟨[[97], [98], [120]], none⟩
      [⟨[97], [47], 0⟩, ⟨[98], [47, 97], 1⟩, ⟨[120], [47, 97, 47, 98], 2⟩]
      ⟨[[97], [98], [120]], some (.node [47] 0
        [.node [47, 97] 1 [.node [47, 98] 2 []]])⟩ :=
    .cons ⟨rfl, rfl⟩ (.cons ⟨rfl, rfl⟩ (.cons ⟨rfl, rfl⟩ (.nil _)))
  refine ⟨_, (mounts_longest_prefix_iff hrun rfl ?_ (by decide)).mpr ?_ _
    ⟨[97, 47, 98, 47, 120], rfl⟩ (by decide)⟩
  · intro c hc
    simp only [List.mem_cons, List.not_mem_nil, or_false] at hc
    rcases hc with rfl | rfl
    · exact ⟨[[97]], by simp, fun c hc => isComponent_letter c (by simp_all), rfl⟩
    · exact ⟨[[97], [98]], by simp,
        fun c hc => isComponent_letter c (by simp at hc ⊢; tauto), rfl⟩
  · simp [List.pairwise_cons, ← isBelow_iff, isBelow, CStr.slash]

/-- `/a/b` and then `/a`: `/a/b/x` goes to the filesystem of `/a`, with the rest
`/b/x`. -/
theorem later_mount_hides :
    ∃ v, Run MountStep ⟨[[97], [98], [120]], none⟩
        [⟨[97], [47], 0⟩, ⟨[98], [47, 97, 47, 98], 1⟩, ⟨[120], [47, 97], 2⟩] v ∧
      v.getAbsolutePath [47, 97, 47, 98, 47, 120] = .ok ⟨[47, 98, 47, 120], 2⟩ ∧
      PathTree.Resolves CStr.slash [([47, 97, 47, 98], 1), ([47, 97], 2)] 0
        [47, 97, 47, 98, 47, 120] (1, [47, 120]) := by
  refine ⟨⟨[[97], [98], [120]], some (.node [47] 0
    [.node [47, 97] 2 [], .node [47, 97, 47, 98] 1 []])⟩,
    .cons ⟨rfl, rfl⟩ (.cons ⟨rfl, rfl⟩ (.cons ⟨rfl, rfl⟩ (.nil _))), rfl, .inl ?_⟩
  refine ⟨[47, 97, 47, 98], by simp, rfl, ⟨[120], rfl⟩, ?_⟩
  intro e he _
  simp only [List.mem_cons, List.not_mem_nil, or_false] at he
  rcases he with rfl | rfl <;> decide

end Toystar.Fs
