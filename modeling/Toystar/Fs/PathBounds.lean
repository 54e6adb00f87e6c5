import Toystar.Fs.Lookup

/-!
# The reads of the path functions

`path_to_node` and `get_name_from_path` look one and two characters ahead and move the path
by 2, 3 or the length of a name and one more.  Here each of these reads is checked against
the NUL of the path, each move too, and each loop has fuel.  In a tree of nodes with any
names, for any path, the functions return (`path_parsing_in_bounds`): a character is only
looked at behind one that is not the NUL.
-/

namespace Toystar.Klibc.CStr

open Toystar.Kernel

/-- `path += n`, to the NUL at most. -/
def advance (path : CStr) (n : Nat) : Except Fault CStr :=
  if n ≤ path.length then .ok (path.drop n) else .error .outOfBounds

/-- `path[i] == '/' && path[i+1] != '\0'`. -/
def slashAt (path : CStr) (i : Nat) : Except Fault Bool := do
  if (← charAt path i) = slash then return decide ((← charAt path (i + 1)) ≠ 0)
  return false

variable {c : UInt8} {path rest : CStr}

theorem charAt_zero (path : CStr) : charAt path 0 = .ok (path.headD 0) := by
  cases path with
  | nil => rfl
  | cons c path => rfl

theorem charAt_cons_succ (c : UInt8) (path : CStr) (i : Nat) :
    charAt (c :: path) (i + 1) = charAt path i := by
  rw [charAt, charAt, List.getElem?_cons_succ, List.length_cons]
  simp only [Nat.add_right_cancel_iff]

/-- A character that is not the NUL. -/
theorem exists_cons_of_headD (hc : path.headD 0 = c) (hne : c ≠ 0) :
    ∃ rest, path = c :: rest := by
  cases path with
  | nil => exact absurd hc.symm hne
  | cons d rest =>
      obtain rfl : d = c := hc
      exact ⟨rest, rfl⟩

theorem advance_append (front rest : CStr) : advance (front ++ rest) front.length = .ok rest := by
  rw [advance, if_pos (by rw [List.length_append]; omega), List.drop_left]

/-- Reading behind a part of the path. -/
theorem charAt_append (front rest : CStr) (i : Nat) :
    charAt (front ++ rest) (front.length + i) = charAt rest i := by
  induction front with
  | nil => rw [List.nil_append, List.length_nil, Nat.zero_add]
  | cons c front ih =>
      rw [List.cons_append, List.length_cons, Nat.add_right_comm, charAt_cons_succ, ih]

theorem slashAt_append (front : CStr) (c : UInt8) (rest : CStr) :
    slashAt (front ++ c :: rest) front.length =
      .ok (decide (c = slash ∧ rest.headD 0 ≠ 0)) := by
  have hhere : charAt (front ++ c :: rest) front.length = .ok c := by
    rw [← Nat.add_zero front.length, charAt_append]
    rfl
  rw [slashAt, hhere, ok_bind, charAt_append, charAt_cons_succ, charAt_zero]
  by_cases hslash : c = slash
  · rw [if_pos hslash]
    simp [hslash, pure, Except.pure]
  · rw [if_neg hslash]
    simp [hslash, pure, Except.pure]

end Toystar.Klibc.CStr

namespace Toystar.Fs

open Toystar.Kernel
open Toystar.Klibc
open Toystar.Verified

namespace Tmpfs

/-! ## The functions -/

/-- The loop of `get_name_from_path` from `i` on; `lastSlash` is an `int`. -/
def lastSlashChecked (path : CStr) : Nat → Nat → Int → Except Fault Int
  | 0, _, _ => .error .fuel
  | fuel + 1, i, last => do
      if (← CStr.charAt path i) = 0 then return last
      let here ← CStr.slashAt path i
      lastSlashChecked path fuel (i + 1) (if here then Int.bmod i (2 ^ 32) else last)

/-- `get_name_from_path`: how far behind `path` the name starts. -/
def getNameFromPathChecked (fuel : Nat) (path : CStr) : Except Fault Int := do
  return (← lastSlashChecked path fuel 0 (-1)) + 1

/-- The last loop of `path_to_node` from `i` on. -/
def tooDeepChecked (path : CStr) : Nat → Nat → Nat → Except Fault Bool
  | 0, _, _ => .error .fuel
  | fuel + 1, i, count => do
      if (← CStr.charAt path i) = 0 then return false
      if ← CStr.slashAt path i then
        if count + 1 > 1 then return true
        tooDeepChecked path fuel (i + 1) (count + 1)
      else tooDeepChecked path fuel (i + 1) count

/-- `while (path[0] == '.' && node != nullptr)`. -/
def skipDotsChecked (s : Tmpfs) :
    Nat → CStr → Option Nat → Except Fault (Option (CStr × Option Nat))
  | 0, _, _ => .error .fuel
  | fuel + 1, path, node => do
      if (← CStr.charAt path 0) ≠ CStr.dot then return some (path, node)
      match node with
      | none => return some (path, none)
      | some p =>
          if (← CStr.charAt path 1) = CStr.dot then
            if (← CStr.charAt path 2) ≠ CStr.slash then return none
            let n ← s.node p
            skipDotsChecked s fuel (← CStr.advance path 3) n.parent
          else
            if (← CStr.charAt path 1) ≠ CStr.slash then return none
            skipDotsChecked s fuel (← CStr.advance path 2) (some p)

/-- `while (head != nullptr && path[0] != '\0')`. -/
def descendChecked (s : Tmpfs) : Nat → Option Nat → CStr → Nat → Except Fault Descent
  | 0, _, _, _ => .error .fuel
  | _ + 1, none, path, node => .ok (.rest path node)
  | fuel + 1, some head, path, node => do
      if (← CStr.charAt path 0) = 0 then return .rest path node
      let h ← s.node head
      let name := (← s.file h.file).name
      if ← CStr.strncmp name path (CStr.strlen name) then
        let c ← CStr.charAt path (CStr.strlen name)
        if c ≠ CStr.slash ∧ c ≠ 0 then descendChecked s fuel h.next path node
        else if c = 0 then return .found head
        else
          let path ← CStr.advance path (CStr.strlen name + 1)
          descendChecked s fuel h.children path head
      else descendChecked s fuel h.next path node

/-- The descent and the last check. -/
def resolveChecked (s : Tmpfs) (fuel : Nat) (head : Option Nat) (path : CStr) (node : Nat) :
    Except Fault (Option Nat) := do
  match ← s.descendChecked fuel head path node with
  | .found head => return some head
  | .rest path node =>
      if ← tooDeepChecked path fuel 0 0 then return none
      return some node

/-- `path_to_node`, which reads `root_tmpfs_node->children` for any path. -/
def pathToNodeChecked (s : Tmpfs) (fuel : Nat) (path : CStr) (currDir : Option Nat) :
    Except Fault (Option Nat) := do
  let root ← s.node s.rootTmpfsNode
  if (← CStr.charAt path 0) ≠ CStr.slash then
    match currDir with
    | none => return none
    | some dir =>
        match ← s.skipDotsChecked fuel path (some dir) with
        | none => return none
        | some (_, none) => return none
        | some (path, some node) =>
            let n ← s.node node
            s.resolveChecked fuel n.children path node
  else
    let path ← CStr.advance path 1
    s.resolveChecked fuel root.children path s.rootTmpfsNode

/-! ## The characters -/

variable {s : Tmpfs} {path : CStr} {fuel i : Nat}

/-- The index of the last slash, which the `int` holds in a path of less than 2 GiB. -/
theorem lastSlashChecked_append (front rest : CStr) (last : Int) (hfuel : rest.length < fuel) :
    ∃ r, lastSlashChecked (front ++ rest) fuel front.length last = .ok r ∧
      ((front ++ rest).length < 2 ^ 31 → r = lastSlash rest front.length last) := by
  induction rest generalizing front last fuel with
  | nil =>
      obtain ⟨fuel, rfl⟩ := Nat.exists_eq_add_one.mpr (Nat.zero_lt_of_lt hfuel)
      have hend : CStr.charAt (front ++ []) front.length = .ok 0 := by
        rw [← Nat.add_zero front.length, CStr.charAt_append]
        rfl
      refine ⟨last, ?_, fun _ => rfl⟩
      rw [lastSlashChecked, hend, ok_bind, if_pos rfl]
      rfl
  | cons c rest ih =>
      obtain ⟨fuel, rfl⟩ := Nat.exists_eq_add_one.mpr (Nat.zero_lt_of_lt hfuel)
      rw [List.length_cons] at hfuel
      have hhere : CStr.charAt (front ++ c :: rest) front.length = .ok c := by
        rw [← Nat.add_zero front.length, CStr.charAt_append]
        rfl
      rw [lastSlashChecked, hhere, ok_bind, CStr.slashAt_append, ok_bind]
      by_cases hzero : c = 0
      · refine ⟨last, if_pos hzero, fun _ => ?_⟩
        rw [lastSlash, if_pos hzero]
      · rw [if_neg hzero, lastSlash, if_neg hzero]
        have hsplit : front ++ c :: rest = (front ++ [c]) ++ rest := by simp
        have hlength : (front ++ [c]).length = front.length + 1 := by simp
        have hlt : rest.length < fuel := by omega
        obtain ⟨r, hret, hr⟩ := ih (front ++ [c])
          (if decide (c = CStr.slash ∧ rest.headD 0 ≠ 0) then Int.bmod front.length (2 ^ 32)
            else last) hlt
        rw [hlength, ← hsplit] at hret hr
        refine ⟨r, hret, fun hshort => ?_⟩
        have hint : Int.bmod front.length (2 ^ 32) = front.length := by
          apply Int.bmod_eq_of_le
          · omega
          · rw [List.length_append] at hshort
            omega
        rw [hr hshort, hint]
        simp only [decide_eq_true_eq]

theorem tooDeepChecked_append (front rest : CStr) (count : Nat) (hfuel : rest.length < fuel) :
    tooDeepChecked (front ++ rest) fuel front.length count = .ok (tooDeep rest count) := by
  induction rest generalizing front count fuel with
  | nil =>
      obtain ⟨fuel, rfl⟩ := Nat.exists_eq_add_one.mpr (Nat.zero_lt_of_lt hfuel)
      have hend : CStr.charAt (front ++ []) front.length = .ok 0 := by
        rw [← Nat.add_zero front.length, CStr.charAt_append]
        rfl
      rw [tooDeepChecked, hend, ok_bind, if_pos rfl]
      rfl
  | cons c rest ih =>
      obtain ⟨fuel, rfl⟩ := Nat.exists_eq_add_one.mpr (Nat.zero_lt_of_lt hfuel)
      rw [List.length_cons] at hfuel
      have hhere : CStr.charAt (front ++ c :: rest) front.length = .ok c := by
        rw [← Nat.add_zero front.length, CStr.charAt_append]
        rfl
      have hrest : ∀ count, tooDeepChecked (front ++ c :: rest) fuel (front.length + 1) count =
          .ok (tooDeep rest count) := by
        intro count
        have hlt : rest.length < fuel := by omega
        have h := ih (front ++ [c]) count hlt
        rw [List.length_append, List.length_singleton, List.append_assoc,
          List.singleton_append] at h
        exact h
      rw [tooDeepChecked, hhere, ok_bind, CStr.slashAt_append, ok_bind, tooDeep]
      by_cases hzero : c = 0
      · rw [if_pos hzero, if_pos hzero]
        rfl
      · rw [if_neg hzero, if_neg hzero]
        by_cases hslash : c = CStr.slash ∧ rest.headD 0 ≠ 0
        · rw [if_pos hslash, if_pos (decide_eq_true hslash), hrest]
          by_cases hcount : count + 1 > 1
          · rw [if_pos hcount, if_pos hcount]
            rfl
          · rw [if_neg hcount, if_neg hcount]
        · rw [if_neg hslash, if_neg (by simpa using hslash), hrest]

/-! ## The nodes -/

/-- The parents of the nodes are nodes. -/
def ParentsInside (s : Tmpfs) : Prop :=
  ∀ {i p : Nat} {n : TmpfsNode}, s.nodes[i]? = some n → n.parent = some p → p < s.nodes.length

/-- A dot before neither a slash nor a dot and a slash. -/
theorem skipDots_malformed (hhere : path.headD 0 ≠ CStr.slash)
    (hup : path.headD 0 = CStr.dot → path.tail.headD 0 ≠ CStr.slash) :
    s.skipDots (CStr.dot :: path) (some i) = .ok none := by
  unfold skipDots
  cases path with
  | nil => rfl
  | cons c1 path =>
      by_cases hdot : c1 = CStr.dot
      · cases path with
        | nil => simp [hdot]
        | cons c2 path =>
            have hslash : c2 ≠ CStr.slash := hup hdot
            simp [hdot, hslash]
      · have hslash : c1 ≠ CStr.slash := hhere
        simp [hdot, hslash]

/-- Each round moves the path on. -/
theorem Linked.skipDotsChecked_eq (h : s.Linked) (hparents : s.ParentsInside)
    {node : Option Nat} (hnode : ∀ i, node = some i → i < s.nodes.length)
    (hfuel : path.length < fuel) :
    ∃ r, s.skipDotsChecked fuel path node = .ok r ∧ s.skipDots path node = .ok r ∧
      ∀ path' i, r = some (path', some i) →
        path'.length ≤ path.length ∧ i < s.nodes.length := by
  induction fuel generalizing path node with
  | zero => exact absurd hfuel (Nat.not_lt_zero _)
  | succ fuel ih =>
      have hstop : ∀ path' i, some (path, node) = some (path', some i) →
          path'.length ≤ path.length ∧ i < s.nodes.length := by
        intro path' i heq
        cases heq
        exact ⟨le_refl _, hnode i rfl⟩
      have hnone : ∀ path' i, (none : Option (CStr × Option Nat)) = some (path', some i) →
          path'.length ≤ path.length ∧ i < s.nodes.length := by
        intro path' i heq
        cases heq
      rw [skipDotsChecked.eq_def]
      dsimp only
      rw [CStr.charAt_zero, ok_bind]
      cases node with
      | none =>
          refine ⟨some (path, none), ?_, skipDots_null path, hstop⟩
          split <;> rfl
      | some p =>
          by_cases hdot : path.headD 0 = CStr.dot
          · obtain ⟨path, rfl⟩ := CStr.exists_cons_of_headD hdot (by decide)
            rw [List.length_cons] at hfuel
            rw [if_neg (not_not.mpr hdot)]
            simp only [CStr.charAt_cons_succ, CStr.charAt_zero, ok_bind]
            by_cases hdot' : path.headD 0 = CStr.dot
            · obtain ⟨path, rfl⟩ := CStr.exists_cons_of_headD hdot' (by decide)
              rw [List.length_cons] at hfuel
              rw [if_pos hdot', CStr.charAt_cons_succ, CStr.charAt_zero, ok_bind]
              by_cases hslash : path.headD 0 = CStr.slash
              · -- `../`
                obtain ⟨path, rfl⟩ := CStr.exists_cons_of_headD hslash (by decide)
                rw [List.length_cons] at hfuel
                have hlt : List.length path < fuel := by omega
                obtain ⟨n, _, hn, _, hget, _, _⟩ := h.objects (hnode p rfl)
                obtain ⟨r, hret, hskip, hrest⟩ := ih (fun j hj => hparents hget hj) hlt
                refine ⟨r, ?_, (skipDots_up hn path).trans hskip, fun path' j hr => ?_⟩
                · rw [if_neg (not_not.mpr hslash), hn, ok_bind]
                  exact hret
                · obtain ⟨hle, hj⟩ := hrest path' j hr
                  simp only [List.length_cons]
                  exact ⟨by omega, hj⟩
              · rw [if_pos hslash]
                exact ⟨none, rfl, skipDots_malformed (by rw [hdot']; decide) fun _ => hslash, hnone⟩
            · rw [if_neg hdot']
              by_cases hslash : path.headD 0 = CStr.slash
              · -- `./`
                obtain ⟨path, rfl⟩ := CStr.exists_cons_of_headD hslash (by decide)
                rw [List.length_cons] at hfuel
                have hlt : List.length path < fuel := by omega
                obtain ⟨r, hret, hskip, hrest⟩ := ih hnode hlt
                refine ⟨r, ?_, (skipDots_here path).trans hskip, fun path' j hr => ?_⟩
                · rw [if_neg (not_not.mpr hslash)]
                  exact hret
                · obtain ⟨hle, hj⟩ := hrest path' j hr
                  simp only [List.length_cons]
                  exact ⟨by omega, hj⟩
              · rw [if_pos hslash]
                exact ⟨none, rfl, skipDots_malformed hslash fun h => absurd h hdot', hnone⟩
          · rw [if_pos hdot]
            exact ⟨some (path, some p), rfl, skipDots_of_ne hdot, hstop⟩

/-- Each round goes on to a sibling or to the children of a node, of which a tree has no more
than its nodes. -/
theorem Linked.descendChecked_eq (h : s.Linked) {budget : Nat → Nat}
    (hbudget : ∀ i, ∀ j ∈ s.tree.kids i, (s.tree.kids j).length + budget j ≤ budget i)
    {xs : List Nat} {p : Option Nat} {fuel' : Nat} (hxs : xs ⊆ s.tree.kids i)
    (hp : s.Siblings p xs) (path : CStr) (hfuel : xs.length + budget i < fuel)
    (hfuel' : xs.length + budget i < fuel') :
    ∃ d, s.descendChecked fuel p path i = .ok d ∧ s.descend fuel' p path i = .ok d ∧
      ∀ path' m, d = .rest path' m → path'.length ≤ path.length := by
  induction fuel generalizing xs p i path fuel' with
  | zero => exact absurd hfuel (Nat.not_lt_zero _)
  | succ fuel ih =>
      obtain ⟨fuel', rfl⟩ := Nat.exists_eq_add_one.mpr (Nat.zero_lt_of_lt hfuel')
      have hstop : ∀ path' m, Descent.rest path i = .rest path' m →
          path'.length ≤ path.length := by
        intro path' m heq
        cases heq
        exact le_refl _
      cases xs with
      | nil =>
          obtain rfl : p = none := hp
          exact ⟨.rest path i, rfl, rfl, hstop⟩
      | cons x xs =>
          rw [List.cons_subset] at hxs
          rcases siblings_cons.mp hp with ⟨rfl, hrest⟩
          rcases h.objects (h.inside hxs.1) with ⟨n, f, hn, hf, hget, hname, _⟩
          have hnul : 0 ∉ f.name := by
            rw [hname]
            exact h.noNul x
          have hnext : s.nextOf (some x) = n.next := by simp [nextOf, hget]
          rw [hnext] at hrest
          rw [List.length_cons] at hfuel hfuel'
          have hleft : xs.length + budget i < fuel := by omega
          have hleft' : xs.length + budget i < fuel' := by omega
          have hsibling := ih hxs.2 hrest path hleft hleft'
          rw [descendChecked, CStr.charAt_zero, ok_bind]
          by_cases hend : path.headD 0 = 0
          · refine ⟨.rest path i, if_pos hend, ?_, hstop⟩
            rw [descend, if_pos hend]
          rw [if_neg hend, descend_some hn hf hend hnul, hn, ok_bind, hf, ok_bind]
          dsimp only
          rw [CStr.strncmp_eq hnul, ok_bind, CStr.strlen_eq hnul]
          by_cases hprefix : f.name.isPrefixOf path = true
          · obtain ⟨rest, rfl⟩ := List.isPrefixOf_iff_prefix.mp hprefix
            have hbehind : CStr.charAt (f.name ++ rest) f.name.length = .ok (rest.headD 0) := by
              rw [← Nat.add_zero f.name.length, CStr.charAt_append, CStr.charAt_zero]
            rw [if_pos hprefix, if_pos hprefix, hbehind, ok_bind, ok_bind]
            by_cases hlonger : rest.headD 0 ≠ CStr.slash ∧ rest.headD 0 ≠ 0
            · rw [if_pos hlonger, if_pos hlonger]
              exact hsibling
            rw [if_neg hlonger, if_neg hlonger]
            by_cases hlast : rest.headD 0 = 0
            · rw [if_pos hlast, if_pos hlast]
              refine ⟨.found x, rfl, rfl, fun path' m heq => ?_⟩
              cases heq
            · -- the slash behind the name
              have hslash : rest.headD 0 = CStr.slash := by
                by_contra hne
                exact hlonger ⟨hne, hlast⟩
              obtain ⟨rest, rfl⟩ := CStr.exists_cons_of_headD hslash (by decide)
              have hsplit : f.name ++ CStr.slash :: rest = (f.name ++ [CStr.slash]) ++ rest := by
                simp
              have hlength : f.name.length + 1 = (f.name ++ [CStr.slash]).length := by simp
              have hkids := hbudget i x hxs.1
              have hbelow : (s.tree.kids x).length + budget x < fuel := by omega
              have hbelow' : (s.tree.kids x).length + budget x < fuel' := by omega
              obtain ⟨d, hchecked, hret, hle⟩ :=
                ih (List.Subset.refl _) (h.chain hget) rest hbelow hbelow'
              refine ⟨d, ?_, ?_, fun path' m heq => ?_⟩
              · rw [if_neg hlast, hsplit, hlength, CStr.advance_append, ok_bind]
                exact hchecked
              · rw [if_neg hlast, hsplit, hlength, List.drop_left]
                exact hret
              · have hrest' := hle path' m heq
                rw [List.length_append, List.length_cons]
                omega
          · rw [if_neg hprefix, if_neg hprefix]
            exact hsibling

/-- The descent and the last check. -/
theorem Linked.resolveChecked_eq (h : s.Linked) {n : TmpfsNode} (hn : s.nodes[i]? = some n)
    (hfuel : path.length + s.nodes.length < fuel) :
    ∃ r, s.resolveChecked fuel n.children path i = .ok r ∧
      s.resolve n.children path i = .ok r := by
  obtain ⟨budget, hle, hbudget⟩ := h.isTree.budget (V := Finset.range s.nodes.length)
    fun i j hj => Finset.mem_range.mpr (h.inside hj)
  have hi := hle i
  rw [Finset.card_range] at hi
  have hbelow : (s.tree.kids i).length + budget i < fuel := by omega
  have hbelow' : (s.tree.kids i).length + budget i < s.nodes.length + 1 := by omega
  obtain ⟨d, hchecked, hret, hshort⟩ :=
    h.descendChecked_eq hbudget (List.Subset.refl _) (h.chain hn) path hbelow hbelow'
  rw [resolveChecked, resolve, hchecked, hret, ok_bind, ok_bind]
  cases d with
  | found head => exact ⟨some head, rfl, rfl⟩
  | rest path' node =>
      have hlt : path'.length < fuel :=
        lt_of_le_of_lt (hshort path' node rfl) (by omega)
      have hdeep := tooDeepChecked_append [] path' 0 hlt
      rw [List.nil_append, List.length_nil] at hdeep
      refine ⟨if tooDeep path' 0 then none else some node, ?_, rfl⟩
      dsimp only
      rw [hdeep, ok_bind]
      split <;> rfl

theorem Linked.pathToNodeChecked_eq (h : s.Linked) (hparents : s.ParentsInside) (path : CStr)
    {currDir : Option Nat} (hdir : ∀ i, currDir = some i → i < s.nodes.length)
    (hfuel : path.length + s.nodes.length < fuel) :
    ∃ r, s.pathToNodeChecked fuel path currDir = .ok r ∧ s.pathToNode path currDir = .ok r := by
  obtain ⟨root, _, hroot, _, hrootget, _, _⟩ := h.objects h.root
  unfold pathToNodeChecked pathToNode
  rw [hroot, ok_bind, CStr.charAt_zero, ok_bind]
  by_cases hslash : path.headD 0 = CStr.slash
  · rw [if_neg (not_not.mpr hslash), if_neg (not_not.mpr hslash), ok_bind]
    obtain ⟨path, rfl⟩ := CStr.exists_cons_of_headD hslash (by decide)
    rw [List.length_cons] at hfuel
    have hadvance : CStr.advance (CStr.slash :: path) 1 = .ok path :=
      CStr.advance_append [CStr.slash] path
    rw [hadvance, ok_bind]
    exact h.resolveChecked_eq hrootget (by omega)
  · rw [if_pos hslash, if_pos hslash]
    cases currDir with
    | none => exact ⟨none, rfl, rfl⟩
    | some dir =>
        have hlt : path.length < fuel := by omega
        obtain ⟨r, hskip, hskip', hrest⟩ := h.skipDotsChecked_eq hparents hdir hlt
        dsimp only
        rw [hskip, hskip', ok_bind, ok_bind]
        match r, hrest with
        | none, _ => exact ⟨none, rfl, rfl⟩
        | some (_, none), _ => exact ⟨none, rfl, rfl⟩
        | some (path', some node), hrest =>
            obtain ⟨hle, hnode⟩ := hrest path' node rfl
            obtain ⟨n, _, hn, _, hget, _, _⟩ := h.objects hnode
            dsimp only
            rw [hn, ok_bind, ok_bind]
            exact h.resolveChecked_eq hget (by omega)

end Tmpfs

/-- In a tree of nodes with any names, from any current directory or none, `path_to_node` and
`get_name_from_path` return for every path, with no read behind its NUL and none of a null
node; and they return what they do without the checks. -/
theorem path_parsing_in_bounds {s : Tmpfs} (h : s.Linked) (hparents : s.ParentsInside)
    (path : CStr) {currDir : Option Nat}
    (hdir : ∀ i, currDir = some i → i < s.nodes.length) {fuel : Nat}
    (hfuel : path.length + s.nodes.length < fuel) :
    (∃ r, s.pathToNodeChecked fuel path currDir = .ok r ∧ s.pathToNode path currDir = .ok r) ∧
    ∃ i, Tmpfs.getNameFromPathChecked fuel path = .ok i ∧
      (path.length < 2 ^ 31 → path.drop i.toNat = Tmpfs.getNameFromPath path) := by
  constructor
  · exact h.pathToNodeChecked_eq hparents path hdir hfuel
  · have hlt : path.length < fuel := by omega
    obtain ⟨r, hret, hr⟩ := Tmpfs.lastSlashChecked_append [] path (-1) hlt
    rw [List.nil_append, List.length_nil] at hret hr
    refine ⟨r + 1, ?_, fun hshort => ?_⟩
    · rw [Tmpfs.getNameFromPathChecked, hret]
      rfl
    · rw [hr hshort, Tmpfs.getNameFromPath]

/-- `../` at the root of the first tree. -/
theorem path_parsing_in_bounds_init :
    ∃ r, Tmpfs.sixteenPages.pathToNodeChecked 5 [46, 46, 47] (some 0) = .ok r := by
  have hparents : Tmpfs.sixteenPages.ParentsInside := by
    intro i p n hn hp
    rcases i with _ | i
    · cases hn
      cases hp
    · cases hn
  have hroot : ∀ i, some 0 = some i → i < Tmpfs.sixteenPages.nodes.length := by
    intro i hi
    obtain rfl : 0 = i := Option.some.inj hi
    exact Nat.zero_lt_one
  obtain ⟨⟨r, hret, _⟩, _⟩ := path_parsing_in_bounds (Tmpfs.shape_init _ _ _).linked
    hparents [46, 46, 47] hroot (show 3 + 1 < 5 by decide)
  exact ⟨r, hret⟩

end Toystar.Fs
