import Toystar.Memory.VmmSpec

/-!
# Copying the pages of a pagemap

`vmm::duplicate` page by page.  The parent is the active pagemap, so the copy
reads through the parent's tables while it allocates frames for pages and for
tables of the new pagemap.  `owned` are the frames in use before the call.  All
that is written are frames outside `owned`, so the parent's tables and pages stay
as they were (`Copied.same`), and each step reads the same bytes as the first
would have.
-/

namespace Toystar.Memory

open Toystar.Klibc
open Toystar.Verified

variable {σ : Type} {alloc : FrameAlloc σ} {mem mem' : ByteMem} {vm : Vmm}
  {tab : List Nat → Option Nat} {W : Set Nat} {virt : Nat}

/-! ## Tables in memory that is not written -/

theorem entryAt_sameOutside (h : SameOutside W mem mem') {t i : Nat} (ht : PAGE_SIZE ∣ t)
    (hi : i < 512) (hW : t ∉ W) : entryAt mem' t i = entryAt mem t i := by
  apply ByteMem.read64_congr
  intro x hlo hhi
  apply h
  have hx : x = t + (x - t) := by omega
  rw [hx, frameOf_add ht (by unfold PAGE_SIZE; omega)]
  exact hW

/-- A pagemap whose tables are not written stays what it is. -/
theorem PageTree.sameOutside (ht : PageTree mem vm tab) (h : SameOutside W mem mem')
    (hW : ∀ t ∈ vm.tables, t ∉ W) : PageTree mem' vm tab :=
  { root := ht.root
    frame := ht.frame
    inj := ht.inj
    closed := ht.closed
    link := by
      intro path t i hpath hlen hi
      rw [entryAt_sameOutside h (ht.frame hpath).1 hi.1 (hW t (ht.recorded hpath))]
      exact ht.link hpath hlen hi
    recorded := ht.recorded }

theorem PageTree.leaf_sameOutside (ht : PageTree mem vm tab) (h : SameOutside W mem mem')
    (hW : ∀ t ∈ vm.tables, t ∉ W) (virt : Nat) :
    leaf mem' tab virt = leaf mem tab virt := by
  cases hpt : tab (pathOf virt) with
  | none => rw [leaf_of_none hpt, leaf_of_none hpt]
  | some pt =>
      rw [leaf_of_some hpt, leaf_of_some hpt,
        entryAt_sameOutside h (ht.frame hpt).1 (getPte_lt virt) (hW pt (ht.recorded hpt))]

/-- The leaf of an address is that of its page. -/
theorem leaf_congr {w : Nat} (h : pageOf w = pageOf virt) :
    leaf mem tab w = leaf mem tab virt := by
  rcases pageOf_eq_iff.mp h with ⟨hpath, hpte⟩
  rw [leaf, leaf, hpath, hpte]

/-! ## What the processor reads -/

/-- The frame in an entry. -/
def frameIn (entry : Nat) : Nat := entry / PAGE_SIZE % 2 ^ 40 * PAGE_SIZE

/-- An entry with the flags `0b101` or `0b111`. -/
theorem frameIn_add {t flags : Nat} (ht : PAGE_SIZE ∣ t) (hle : t ≤ 2 ^ 47)
    (hflags : flags = 0b101 ∨ flags = 0b111) :
    frameIn (t + flags) = t ∧ (t + flags) % 2 = 1 := by
  obtain ⟨a, rfl⟩ := ht
  unfold frameIn PAGE_SIZE at *
  omega

theorem presentAt_eq (mem : ByteMem) (t i : Nat) :
    Vmm.presentAt mem t i =
      if entryAt mem t i % 2 = 1 then some (frameIn (entryAt mem t i)) else none := rfl

/-- A link is a present entry. -/
theorem presentAt_linked {mem : ByteMem} {t i u : Nat} (hu : IsFrame u)
    (hlink : entryAt mem t i = u ||| 0b111) : Vmm.presentAt mem t i = some u := by
  have hval : u ||| 0b111 = u + 7 := or_low hu.1 (by decide)
  have hpresent := frameIn_add hu.1 hu.2.2.le (.inr rfl)
  rw [presentAt_eq, hlink, hval, if_pos hpresent.2, hpresent.1]

/-- The links of the tables are present entries. -/
theorem PageTree.presentAt_link (ht : PageTree mem vm tab) {path : List Nat} {t i : Nat}
    (hpath : tab path = some t) (hlen : path.length < 3) (hi : UserIndex path i) :
    Vmm.presentAt mem t i = tab (i :: path) := by
  have hlink := ht.link hpath hlen hi
  cases hnext : tab (i :: path) with
  | none =>
      rw [presentAt_eq, hlink, hnext]
      rfl
  | some u =>
      rw [hnext, Option.elim_some] at hlink
      exact presentAt_linked (ht.frame hnext) hlink

/-- Four steps that all succeed. -/
theorem bind_steps {x : Option Nat} {a b c d : Nat} (f₁ f₂ f₃ : Nat → Option Nat)
    (offset : Nat) (h₀ : x = some a) (h₁ : f₁ a = some b) (h₂ : f₂ b = some c)
    (h₃ : f₃ c = some d) :
    (do
      let p ← x
      let q ← f₁ p
      let r ← f₂ q
      let s ← f₃ r
      return s + offset) = some (d + offset) := by
  simp only [h₀, h₁, h₂, h₃, Option.bind_eq_bind, Option.bind_some, Option.pure_def]

/-- The processor follows the tree to the page's entry. -/
theorem PageTree.access_eq (ht : PageTree mem vm tab) (huser : UserAddr virt)
    (hcanon : Vmm.Canonical virt) (hpresent : leaf mem tab virt % 2 = 1) :
    Vmm.access mem vm.pml4 virt = some (frameIn (leaf mem tab virt) + virt % PAGE_SIZE) := by
  have hidx : ∀ {a : Nat} {path : List Nat}, path ≠ [] → UserIndex path (a % 512) :=
    fun hne => ⟨Nat.mod_lt _ (by decide), fun hnil => absurd hnil hne⟩
  cases hpt : tab (pathOf virt) with
  | none =>
      rw [leaf_of_none hpt] at hpresent
      omega
  | some pt =>
      rw [leaf_of_some hpt] at hpresent ⊢
      rcases ht.closed hpt with ⟨pd, hpd⟩
      rcases ht.closed hpd with ⟨pdp, hpdp⟩
      have h₁ : Vmm.presentAt mem vm.pml4 (getPml4e virt) = some pdp :=
        (ht.presentAt_link ht.root (by simp)
          ⟨Nat.mod_lt _ (by decide), fun _ => huser⟩).trans hpdp
      have h₂ : Vmm.presentAt mem pdp (getPdpe virt) = some pd :=
        (ht.presentAt_link hpdp (by simp) (hidx (by simp))).trans hpd
      have h₃ : Vmm.presentAt mem pd (getPde virt) = some pt :=
        (ht.presentAt_link hpd (by simp) (hidx (by simp))).trans hpt
      have h₄ : Vmm.presentAt mem pt (getPte virt) =
          some (frameIn (entryAt mem pt (getPte virt))) := by
        rw [presentAt_eq, if_pos hpresent]
      exact (if_pos hcanon).trans (bind_steps (fun pdp => Vmm.presentAt mem pdp (getPdpe virt))
        (fun pd => Vmm.presentAt mem pd (getPde virt))
        (fun pt => Vmm.presentAt mem pt (getPte virt)) (virt % PAGE_SIZE) h₁ h₂ h₃ h₄)

/-! ## One page -/

/-- Only bytes of the frame `f` differ. -/
theorem sameOutside_of_bytes {mem mem' : ByteMem} {f n : Nat} (hf : PAGE_SIZE ∣ f)
    (hn : n ≤ PAGE_SIZE) (h : ∀ x, ¬(f ≤ x ∧ x < f + n) → mem' x = mem x) :
    SameOutside {f} mem mem' := by
  intro x hx
  apply h
  intro hin
  have hxf : x = f + (x - f) := by omega
  rw [hxf, frameOf_add hf (by omega)] at hx
  exact hx rfl

/-- `memcpy8` of a page whose source is read at `frame` all along. -/
theorem memcpy8_eq {pml4 dest src frame n : Nat} (hn : n ≤ PAGE_SIZE / 8)
    (hdest : PAGE_SIZE ∣ dest) (hframe : PAGE_SIZE ∣ frame) (hne : frame ≠ dest)
    (haccess : ∀ mem', SameOutside {dest} mem mem' → ∀ o < PAGE_SIZE,
      Vmm.access mem' pml4 (src + o) = some (frame + o)) :
    ∃ mem', Vmm.memcpy8 pml4 dest src n mem = some mem' ∧
      ∀ x, mem' x = if dest ≤ x ∧ x < dest + 8 * n then mem (frame + (x - dest)) else mem x := by
  induction n with
  | zero =>
      refine ⟨mem, rfl, ?_⟩
      intro x
      rw [if_neg (by omega)]
  | succ n ih =>
      rcases ih (by omega) with ⟨m, hm, hbytes⟩
      have hsame : SameOutside {dest} mem m :=
        sameOutside_of_bytes (n := 8 * n) hdest (by unfold PAGE_SIZE at *; omega)
          fun x hx => by rw [hbytes, if_neg hx]
      have hread := haccess m hsame (8 * n) (by unfold PAGE_SIZE at *; omega)
      refine ⟨m.write64 (dest + 8 * n) (m.read64 (frame + 8 * n)), ?_, ?_⟩
      · rw [Vmm.memcpy8, hm, Option.bind_eq_bind, Option.bind_some, hread]
        rfl
      · intro x
        rw [ByteMem.write64_read64]
        obtain ⟨a, rfl⟩ := hdest
        obtain ⟨b, rfl⟩ := hframe
        unfold PAGE_SIZE at *
        by_cases hx : 4096 * a + 8 * n ≤ x ∧ x < 4096 * a + 8 * n + 8
        · rw [if_pos hx, if_pos (by omega), hbytes, if_neg (by omega)]
          congr 1
          omega
        · rw [if_neg hx, hbytes]
          by_cases hold : 4096 * a ≤ x ∧ x < 4096 * a + 8 * n
          · rw [if_pos hold, if_pos (by omega)]
          · rw [if_neg hold, if_neg (by omega)]

/-- A page of the parent that can be copied. -/
structure ParentPage (mem : ByteMem) (tab : List Nat → Option Nat) (owned : Set Nat)
    (virt : Nat) : Prop where
  user : UserAddr virt
  canonical : Vmm.Canonical virt
  present : leaf mem tab virt % 2 = 1
  owned : frameIn (leaf mem tab virt) ∈ owned

theorem frameIn_aligned (e : Nat) : PAGE_SIZE ∣ frameIn e := Nat.dvd_mul_left _ _

/-- Addresses inside a page. -/
theorem page_add {o : Nat} (hvirt : PAGE_SIZE ∣ virt) (ho : o < PAGE_SIZE) :
    pageOf (virt + o) = pageOf virt ∧ (virt + o) % PAGE_SIZE = o := by
  obtain ⟨a, rfl⟩ := hvirt
  unfold pageOf PAGE_SIZE at *
  omega

theorem UserAddr.congr {w : Nat} (h : pageOf w = pageOf virt) (huser : UserAddr virt) :
    UserAddr w := by
  unfold UserAddr at *
  rwa [getPml4e_eq, h, ← getPml4e_eq]

theorem Vmm.Canonical.add {o : Nat} (h : Vmm.Canonical virt) (hvirt : PAGE_SIZE ∣ virt)
    (ho : o < PAGE_SIZE) : Vmm.Canonical (virt + o) := by
  obtain ⟨a, rfl⟩ := hvirt
  unfold Vmm.Canonical PAGE_SIZE at *
  omega

/-- The bytes the processor reads from a page of the parent. -/
theorem ParentPage.access_eq {p : Vmm} {owned : Set Nat} (hpage : ParentPage mem tab owned virt)
    (ht : PageTree mem p tab) (hvirt : PAGE_SIZE ∣ virt) {o : Nat} (ho : o < PAGE_SIZE) :
    Vmm.access mem p.pml4 (virt + o) = some (frameIn (leaf mem tab virt) + o) := by
  rcases page_add hvirt ho with ⟨hpageOf, hmod⟩
  have hleaf : leaf mem tab (virt + o) = leaf mem tab virt := leaf_congr hpageOf
  rw [ht.access_eq (hpage.user.congr hpageOf) (hpage.canonical.add hvirt ho)
    (by rw [hleaf]; exact hpage.present), hleaf, hmod]

/-! ## The pages copied so far -/

/-- The entry of a page that is mapped to a frame with flags. -/
def entryOf : Option (Nat × Nat) → Nat
  | none => 0
  | some (f, flags) => (f ||| flags) % 2 ^ 64

/-- The new pagemap `vm` after some pages: `m` says which page has which frame and
flags.  The frames are not in `owned`, hold what the parent's pages hold, and `n` more
can be had; nothing in `owned` was written since `mem₀`. -/
structure Copied (alloc : FrameAlloc σ) (mem₀ : ByteMem) (tab₀ : List Nat → Option Nat)
    (owned : Set Nat) (k : Machine σ) (vm : Vmm) (m : Nat → Option (Nat × Nat)) (n : Nat) :
    Prop where
  tree : ∃ tab, PageTree k.mem vm tab ∧
    ∀ virt, UserAddr virt → leaf k.mem tab virt = entryOf (m (pageOf virt))
  tables : ∀ t ∈ vm.tables, t ∉ owned
  frame : ∀ {q f flags}, m q = some (f, flags) → IsFrame f ∧ f ∉ owned ∧ f ∉ vm.tables
  inj : ∀ {q r f flags flags'}, m q = some (f, flags) → m r = some (f, flags') → q = r
  contents : ∀ {virt f flags}, m (pageOf virt) = some (f, flags) → ∀ o < PAGE_SIZE,
    k.mem (f + o) = mem₀ (frameIn (leaf mem₀ tab₀ virt) + o)
  same : ∀ x, frameOf x ∈ owned → k.mem x = mem₀ x
  supply : ∃ taken, Supplies alloc n k.pmm taken ∧ owned ⊆ taken ∧ vm.tables ⊆ taken ∧
    ∀ {q f flags}, m q = some (f, flags) → f ∈ taken

/-- Outside what is owned. -/
theorem sameOutside_compl {owned : Set Nat} :
    SameOutside ownedᶜ mem mem' ↔ ∀ x, frameOf x ∈ owned → mem' x = mem x := by
  simp only [SameOutside, Set.mem_compl_iff, not_not]

section CopyPage

variable {mem₀ : ByteMem} {tab₀ : List Nat → Option Nat} {owned : Set Nat} {p : Vmm}
  {k : Machine σ} {m : Nat → Option (Nat × Nat)} {n : Nat}

/-- The frame the copy of a page goes to, and memory with the copy in it. -/
theorem Copied.frame_copied (h : Copied alloc mem₀ tab₀ owned k vm m (n + 1))
    (htree : PageTree mem₀ p tab₀) (howned : p.tables ⊆ owned) (hvirt : PAGE_SIZE ∣ virt)
    (hpage : ParentPage mem₀ tab₀ owned virt) :
    ∃ f pmm' mem', alloc k.pmm k.mem = (f, pmm', memset k.mem f 0 PAGE_SIZE) ∧
      Vmm.memcpy8 p.pml4 f virt (PAGE_SIZE / 8) (memset k.mem f 0 PAGE_SIZE) = some mem' ∧
      IsFrame f ∧ f ∉ owned ∧ f ∉ vm.tables ∧ (∀ {q g flags}, m q = some (g, flags) → g ≠ f) ∧
      SameOutside {f} k.mem mem' ∧
      (∀ o < PAGE_SIZE, mem' (f + o) = mem₀ (frameIn (leaf mem₀ tab₀ virt) + o)) ∧
      ∃ taken, Supplies alloc n pmm' taken ∧ owned ⊆ taken ∧ vm.tables ⊆ taken ∧ f ∈ taken ∧
        ∀ {q g flags}, m q = some (g, flags) → g ∈ taken := by
  rcases h.supply with ⟨taken, hsup, hown, htab, hdata⟩
  obtain ⟨f, pmm', hret, hf, hnew, hrest⟩ := hsup
  have hfo : f ∉ owned := fun hmem => hnew (hown hmem)
  have hzero : SameOutside {f} k.mem (memset k.mem f 0 PAGE_SIZE) :=
    sameOutside_memset hf.1 (Set.mem_singleton f) _
  -- whatever is written to the new frame, the parent's page is read as before
  have hread : ∀ mem', SameOutside {f} (memset k.mem f 0 PAGE_SIZE) mem' →
      ∀ o < PAGE_SIZE, Vmm.access mem' p.pml4 (virt + o) =
        some (frameIn (leaf mem₀ tab₀ virt) + o) := by
    intro mem' hmem' o ho
    have hall : SameOutside ownedᶜ mem₀ mem' := by
      rw [sameOutside_compl]
      intro x hx
      have hxf : frameOf x ∉ ({f} : Set Nat) := by
        rintro rfl
        exact hfo hx
      rw [hmem' x hxf, hzero x hxf]
      exact h.same x hx
    have hno : ∀ t ∈ p.tables, t ∉ ownedᶜ := fun t ht hmem => hmem (howned ht)
    have hleaf := htree.leaf_sameOutside hall hno virt
    have hpage' : ParentPage mem' tab₀ owned virt :=
      ⟨hpage.user, hpage.canonical, by rw [hleaf]; exact hpage.present,
        by rw [hleaf]; exact hpage.owned⟩
    rw [hpage'.access_eq (htree.sameOutside hall hno) hvirt ho, hleaf]
  have hsrc : frameIn (leaf mem₀ tab₀ virt) ≠ f := fun heq => hfo (heq ▸ hpage.owned)
  rcases memcpy8_eq (le_refl _) hf.1 (frameIn_aligned _) hsrc hread with ⟨mem', hcopy, hbytes⟩
  have hsize : 8 * (PAGE_SIZE / 8) = PAGE_SIZE := by decide
  rw [hsize] at hbytes
  refine ⟨f, pmm', mem', hret k.mem, hcopy, hf, hfo, fun hmem => hnew (htab hmem), ?_, ?_, ?_,
    insert f taken, hrest, hown.trans (Set.subset_insert _ _),
    htab.trans (Set.subset_insert _ _), Set.mem_insert _ _,
    fun hq => Set.mem_insert_of_mem _ (hdata hq)⟩
  · rintro q g flags hq rfl
    exact hnew (hdata hq)
  · refine hzero.trans (sameOutside_of_bytes hf.1 (le_refl PAGE_SIZE) ?_)
    intro x hx
    rw [hbytes, if_neg hx]
  · intro o ho
    have hof : frameOf (frameIn (leaf mem₀ tab₀ virt) + o) = frameIn (leaf mem₀ tab₀ virt) :=
      frameOf_add (frameIn_aligned _) ho
    rw [hbytes, if_pos (by omega), Nat.add_sub_cancel_left, hzero _ (by rw [hof]; exact hsrc)]
    exact h.same _ (by rw [hof]; exact hpage.owned)

/-- One round of the inner loop. -/
theorem Copied.copyPage (h : Copied alloc mem₀ tab₀ owned k vm m (n + 4))
    (htree : PageTree mem₀ p tab₀) (howned : p.tables ⊆ owned) (hvirt : PAGE_SIZE ∣ virt)
    (hpage : ParentPage mem₀ tab₀ owned virt) (prot : Nat) :
    ∃ k' vm' f, Vmm.copyPage alloc p virt prot (k, vm) = some (k', vm') ∧
      Copied alloc mem₀ tab₀ owned k' vm'
        (Function.update m (pageOf virt) (some (f, prot % 2 ^ 16))) n := by
  rcases h.frame_copied htree howned hvirt hpage with
    ⟨f, pmm', mem', hret, hcopy, hf, hfo, hft, hnew, hsame, hbytes, taken, hsup, hown, htab,
      hftaken, hdata⟩
  rcases h.tree with ⟨tab, ht, hleaf⟩
  have hft' : ∀ t ∈ vm.tables, t ∉ ({f} : Set Nat) := by
    rintro t htmem rfl
    exact hft htmem
  obtain ⟨k', vm', tab', hmap, ht', _, _, hleaf', hsame', hgains⟩ :=
    mapPage_spec (k := ⟨mem', pmm'⟩) f (prot % 2 ^ 16) (ht.sameOutside hsame hft') hpage.user
      htab hsup
  have hwrite : SameOutside vm'.tables mem' k'.mem := hsame'
  have htables : ∀ t ∈ vm'.tables, t ∈ vm.tables ∨ t ∉ taken := hgains.fresh
  have hdisj : ∀ {t}, t ∈ taken → t ∉ vm.tables → t ∉ vm'.tables := by
    intro t htaken hnot hmem
    rcases htables t hmem with hold | hfresh
    · exact hnot hold
    · exact hfresh htaken
  have hfvm' : f ∉ vm'.tables := hdisj hftaken hft
  -- the frames that were copied before
  have hold : ∀ {q g flags}, m q = some (g, flags) → g ∉ vm'.tables ∧ g ≠ f := by
    intro q g flags hq
    exact ⟨hdisj (hdata hq) (h.frame hq).2.2, hnew hq⟩
  have hcases : ∀ {q g flags},
      Function.update m (pageOf virt) (some (f, prot % 2 ^ 16)) q = some (g, flags) →
      (q = pageOf virt ∧ g = f) ∨ (q ≠ pageOf virt ∧ m q = some (g, flags)) := by
    intro q g flags hq
    by_cases hqv : q = pageOf virt
    · rw [hqv, Function.update_self, Option.some.injEq, Prod.mk.injEq] at hq
      exact .inl ⟨hqv, hq.1.symm⟩
    · rw [Function.update_of_ne hqv] at hq
      exact .inr ⟨hqv, hq⟩
  refine ⟨k', vm', f, ?_, ?_⟩
  · rw [Vmm.copyPage, hret, hcopy]
    exact congrArg some hmap
  refine
    { tree := ⟨tab', ht', ?_⟩
      tables := ?_
      frame := ?_
      inj := ?_
      contents := ?_
      same := ?_
      supply := ⟨taken ∪ vm'.tables, hgains.supply, hown.trans Set.subset_union_left,
        Set.subset_union_right, ?_⟩ }
  · intro w hw
    rw [hleaf' w]
    by_cases hwv : pageOf w = pageOf virt
    · rw [if_pos hwv, hwv, Function.update_self]
      rfl
    · rw [if_neg hwv, Function.update_of_ne hwv, ht.leaf_sameOutside hsame hft' w]
      exact hleaf w hw
  · intro t htmem
    rcases htables t htmem with hmem | hfresh
    · exact h.tables t hmem
    · exact fun howned => hfresh (hown howned)
  · intro q g flags hq
    rcases hcases hq with ⟨_, rfl⟩ | ⟨_, hq⟩
    · exact ⟨hf, hfo, hfvm'⟩
    · exact ⟨(h.frame hq).1, (h.frame hq).2.1, (hold hq).1⟩
  · intro q r g flags flags' hq hr
    rcases hcases hq with ⟨hqv, hg⟩ | ⟨_, hq⟩
    · rcases hcases hr with ⟨hrv, _⟩ | ⟨_, hr⟩
      · rw [hqv, hrv]
      · exact absurd hg (hold hr).2
    · rcases hcases hr with ⟨_, hg⟩ | ⟨_, hr⟩
      · exact absurd hg (hold hq).2
      · exact h.inj hq hr
  · intro w g flags hw o ho
    rcases hcases hw with ⟨hwv, rfl⟩ | ⟨_, hq⟩
    · rw [hwrite _ (by rw [frameOf_add hf.1 ho]; exact hfvm'), leaf_congr hwv]
      exact hbytes o ho
    · have hg := frameOf_add (h.frame hq).1.1 ho
      rw [hwrite _ (by rw [hg]; exact (hold hq).1), hsame _ (by rw [hg]; exact (hold hq).2)]
      exact h.contents hq o ho
  · intro x hx
    have hxt : frameOf x ∉ vm'.tables := hdisj (hown hx) fun hmem => h.tables _ hmem hx
    have hxf : frameOf x ∉ ({f} : Set Nat) := by
      intro hmem
      exact hfo (Set.mem_singleton_iff.mp hmem ▸ hx)
    rw [hwrite x hxt, hsame x hxf]
    exact h.same x hx
  · intro q g flags hq
    rcases hcases hq with ⟨_, rfl⟩ | ⟨_, hq⟩
    · exact .inl hftaken
    · exact .inl (hdata hq)

/-- The inner loop maps the pages it runs over and no other. -/
theorem Copied.copyPages {base count : Nat}
    (h : Copied alloc mem₀ tab₀ owned k vm m (n + 4 * count))
    (htree : PageTree mem₀ p tab₀) (howned : p.tables ⊆ owned) (hbase : PAGE_SIZE ∣ base)
    (hpages : ∀ t < count,
      ParentPage mem₀ tab₀ owned ((base + t * PAGE_SIZE) % 2 ^ 64)) (prot : Nat) :
    ∃ k' vm' m', Vmm.copyPages alloc p base prot count (k, vm) = some (k', vm') ∧
      Copied alloc mem₀ tab₀ owned k' vm' m' n ∧
      (∀ t < count, (m' (pageOf ((base + t * PAGE_SIZE) % 2 ^ 64))).map Prod.snd =
        some (prot % 2 ^ 16)) ∧
      ∀ q, (∀ t < count, q ≠ pageOf ((base + t * PAGE_SIZE) % 2 ^ 64)) → m' q = m q := by
  induction count generalizing n with
  | zero => exact ⟨k, vm, m, rfl, h, fun t ht => absurd ht (Nat.not_lt_zero t), fun _ _ => rfl⟩
  | succ count ih =>
      have h' : Copied alloc mem₀ tab₀ owned k vm m (n + 4 + 4 * count) := by
        rwa [show n + 4 + 4 * count = n + 4 * (count + 1) from by omega]
      rcases ih h' (fun t ht => hpages t (by omega)) with
        ⟨k₁, vm₁, m₁, hret₁, hc₁, hin₁, hout₁⟩
      have hvirt : PAGE_SIZE ∣ (base + count * PAGE_SIZE) % 2 ^ 64 :=
        (Nat.dvd_mod_iff (by decide)).mpr (Nat.dvd_add hbase (Nat.dvd_mul_left _ _))
      rcases hc₁.copyPage htree howned hvirt (hpages count (Nat.lt_succ_self _)) prot with
        ⟨k₂, vm₂, f, hret₂, hc₂⟩
      refine ⟨k₂, vm₂, _, ?_, hc₂, ?_, ?_⟩
      · rw [Vmm.copyPages]
        exact Option.bind_eq_some_iff.mpr ⟨_, hret₁, hret₂⟩
      · intro t ht
        by_cases hlast : pageOf ((base + t * PAGE_SIZE) % 2 ^ 64) =
            pageOf ((base + count * PAGE_SIZE) % 2 ^ 64)
        · rw [hlast, Function.update_self]
          rfl
        · rw [Function.update_of_ne hlast]
          apply hin₁
          rcases Nat.lt_succ_iff_lt_or_eq.mp ht with hlt | rfl
          · exact hlt
          · exact absurd rfl hlast
      · intro q hq
        rw [Function.update_of_ne (hq count (Nat.lt_succ_self _))]
        exact hout₁ q fun t ht => hq t (by omega)

end CopyPage

/-! ## Ranges -/

/-- `& ~4095` rounds down. -/
theorem and_frameMask_aligned (v : Nat) : PAGE_SIZE ∣ v &&& frameMask := by
  apply Nat.dvd_of_mod_eq_zero
  have hmask : frameMask % 2 ^ 12 = 0 := by decide
  show (v &&& frameMask) % 2 ^ 12 = 0
  rw [Nat.and_mod_two_pow, hmask, Nat.and_zero]

namespace MemArea

/-- Page `t` of a range, whose base is rounded down. -/
def page (range : MemArea) (t : Nat) : Nat :=
  ((range.base &&& frameMask) + t * PAGE_SIZE) % 2 ^ 64

/-- `⌈limit / PAGE_SIZE⌉`. -/
def pageCount (range : MemArea) : Nat := (range.limit + PAGE_SIZE - 1) / PAGE_SIZE

/-- Page number `q` is one of the range's. -/
def Covers (range : MemArea) (q : Nat) : Prop :=
  ∃ t < range.pageCount, q = pageOf (range.page t)

instance (range : MemArea) (q : Nat) : Decidable (range.Covers q) :=
  inferInstanceAs (Decidable (∃ t < range.pageCount, q = pageOf (range.page t)))

/-- The flags for page number `q`: those of the last range that covers it, or what was
there `before`. -/
def flagsAt (ranges : List MemArea) (q : Nat) (before : Option Nat) : Option Nat :=
  ranges.foldl (fun flags range => if range.Covers q then some (range.prot % 2 ^ 16) else flags)
    before

/-- 2 ^ 36 pages do not all lie in user space. -/
theorem pageCount_lt {range : MemArea}
    (huser : ∀ t < range.pageCount, UserAddr (range.page t)) : range.pageCount < 2 ^ 36 := by
  by_contra hge
  rw [Nat.not_lt] at hge
  set base := range.base &&& frameMask with hbase
  -- the page of the range that the kernel's entry 256 covers
  have hkernel := huser ((256 * 2 ^ 27 + 2 ^ 36 - base / 2 ^ 12 % 2 ^ 36) % 2 ^ 36)
    (lt_of_lt_of_le (Nat.mod_lt _ (by decide)) hge)
  refine hkernel.1 ?_
  unfold getPml4e page PAGE_SIZE
  rw [← hbase]
  omega

theorem pageAmount_eq {range : MemArea}
    (huser : ∀ t < range.pageCount, UserAddr (range.page t)) :
    Vmm.pageAmount range.limit = range.pageCount := by
  have hlt := pageCount_lt huser
  unfold pageCount PAGE_SIZE at hlt
  unfold Vmm.pageAmount pageCount PAGE_SIZE
  rw [Nat.mod_eq_of_lt (by omega)]

end MemArea

section Ranges

variable {mem₀ : ByteMem} {tab₀ : List Nat → Option Nat} {owned : Set Nat} {p : Vmm}
  {k : Machine σ} {m : Nat → Option (Nat × Nat)} {n : Nat}

/-- The outer loop. -/
theorem Copied.copyRanges {ranges : List MemArea} (heap : Arrays MemArea)
    (h : Copied alloc mem₀ tab₀ owned k vm m (n + 4 * (ranges.map (·.pageCount)).sum))
    (htree : PageTree mem₀ p tab₀) (howned : p.tables ⊆ owned)
    (hpages : ∀ range ∈ ranges, ∀ t < range.pageCount,
      ParentPage mem₀ tab₀ owned (range.page t)) :
    ∃ k' vm' heap' m',
      ranges.foldlM (Vmm.copyRange alloc p .new) ((k, vm), heap) = some ((k', vm'), heap') ∧
      Copied alloc mem₀ tab₀ owned k' vm' m' n ∧
      ∀ q, (m' q).map Prod.snd = MemArea.flagsAt ranges q ((m q).map Prod.snd) := by
  induction ranges generalizing k vm m heap with
  | nil => exact ⟨k, vm, heap, m, rfl, h, fun _ => rfl⟩
  | cons range ranges ih =>
      rw [List.forall_mem_cons] at hpages
      have hamount : Vmm.pageAmount range.limit = range.pageCount :=
        MemArea.pageAmount_eq fun t ht => (hpages.1 t ht).user
      have h' : Copied alloc mem₀ tab₀ owned k vm m
          (n + 4 * (ranges.map (·.pageCount)).sum + 4 * range.pageCount) := by
        rw [List.map_cons, List.sum_cons] at h
        rwa [show n + 4 * (ranges.map (·.pageCount)).sum + 4 * range.pageCount =
          n + 4 * (range.pageCount + (ranges.map (·.pageCount)).sum) from by omega]
      rcases h'.copyPages htree howned (and_frameMask_aligned _) hpages.1 range.prot with
        ⟨k₁, vm₁, m₁, hret₁, hc₁, hin, hout⟩
      rcases ih (heap ++ [none]) hc₁ hpages.2 with
        ⟨k₂, vm₂, heap₂, m₂, hret₂, hc₂, hflags⟩
      refine ⟨k₂, vm₂, heap₂, m₂, ?_, hc₂, ?_⟩
      · have hrange : Vmm.copyRange alloc p .new ((k, vm), heap) range =
            some ((k₁, vm₁), heap ++ [none]) := by
          rw [Vmm.copyRange, hamount, hret₁, Option.bind_eq_bind, Option.bind_some,
            ToysVector.pushBackTemporary_new]
          rfl
        rw [List.foldlM_cons, hrange]
        exact hret₂
      · intro q
        rw [hflags q, MemArea.flagsAt, MemArea.flagsAt, List.foldl_cons]
        congr 1
        by_cases hq : range.Covers q
        · rw [if_pos hq]
          rcases hq with ⟨t, ht, rfl⟩
          exact hin t ht
        · rw [if_neg hq, hout q]
          intro t ht heq
          exact hq ⟨t, ht, heq⟩

/-- The new pagemap maps nothing. -/
theorem copied_new (tab₀ : List Nat → Option Nat) (kernelPml4 : Nat)
    (hsup : Supplies alloc (n + 1) k.pmm owned) :
    Copied alloc k.mem tab₀ owned (Vmm.new alloc k kernelPml4).1
      (Vmm.new alloc k kernelPml4).2 (fun _ => none) n := by
  obtain ⟨f, pmm', hret, hf, hnew, hrest⟩ := hsup
  have hvm : (Vmm.new alloc k kernelPml4).2 = ⟨f, [], []⟩ := by simp only [Vmm.new, hret]
  have hpmm : (Vmm.new alloc k kernelPml4).1.pmm = pmm' := by simp only [Vmm.new, hret]
  obtain ⟨e₁, e₂, hmem⟩ : ∃ e₁ e₂, (Vmm.new alloc k kernelPml4).1.mem =
      setEntry (setEntry (memset k.mem f 0 PAGE_SIZE) f 256 e₁) f 511 e₂ := by
    simp only [Vmm.new, hret]
    exact ⟨_, _, rfl⟩
  have htables : (Vmm.new alloc k kernelPml4).2.tables = {f} := by
    rw [hvm]
    ext t
    simp [Vmm.tables]
  have hsame : SameOutside {f} k.mem (Vmm.new alloc k kernelPml4).1.mem := by
    rw [hmem]
    exact sameOutside_newTable hf.1 _ _ _
  have hzero : ∀ {i}, UserIndex [] i →
      entryAt (Vmm.new alloc k kernelPml4).1.mem f i = 0 := by
    intro i hi
    rw [hmem]
    exact entryAt_newTable hf.1 hi _ _ _
  refine
    { tree := ⟨_, hvm ▸ PageTree.root_only hf [] hzero, ?_⟩
      tables := ?_
      frame := by simp
      inj := by simp
      contents := by simp
      same := ?_
      supply := ⟨insert f owned, hpmm ▸ hrest, Set.subset_insert _ _, ?_, by simp⟩ }
  · intro virt _
    rw [leaf_of_none (by simp [pathOf])]
    rfl
  · rw [htables]
    rintro t rfl
    exact hnew
  · intro x hx
    apply hsame
    rintro rfl
    exact hnew hx
  · rw [htables]
    exact Set.singleton_subset_iff.mpr (Set.mem_insert _ _)

end Ranges

end Toystar.Memory
