import Toystar.Kernel.Lock
import Toystar.Memory.PmmRun

/-!
# `PMM::init`

The three passes over the stivale2 memory map: the top of memory, the place of
the bitmap (which edits the entry it is put in), and the clearing of the bits
of every region.  The last pass runs `i <= pageNumber + length`, so it also
clears the bit of the page behind each region; `marked_free_iff` is exact about
what that frees, and `init_exact_iff` says for which memory maps the result is
nevertheless the one intended.
-/

namespace Toystar.Memory

open Toystar.Kernel
open Toystar.Klibc
open Toystar.Verified

/-! ## The memory map -/

/-- `STIVALE2_MMAP_*`. -/
inductive MmapType
  | usable
  | reserved
  | acpiReclaimable
  | acpiNvs
  | badMemory
  | bootloaderReclaimable
  | kernelAndModules
  | framebuffer
  | other (code : UInt32)
deriving DecidableEq, Repr

/-- `stivale2_mmap_entry`. -/
structure MmapEntry where
  base : Nat
  length : Nat
  type : MmapType
deriving DecidableEq, Repr

namespace MmapEntry

/-- `USABLE` or `BOOTLOADER_RECLAIMABLE`: memory the kernel may take. -/
def Freeable (e : MmapEntry) : Prop :=
  e.type = .usable ∨ e.type = .bootloaderReclaimable

/-- `USABLE` or `KERNEL_AND_MODULES`: memory that counts for the top. -/
def CountsForTop (e : MmapEntry) : Prop :=
  e.type = .usable ∨ e.type = .kernelAndModules

instance (e : MmapEntry) : Decidable e.Freeable :=
  inferInstanceAs (Decidable (_ ∨ _))

instance (e : MmapEntry) : Decidable e.CountsForTop :=
  inferInstanceAs (Decidable (_ ∨ _))

end MmapEntry

namespace Pmm

/-- The first loop: `lastUsablePage`, an address. -/
def lastUsablePage (mmap : List MmapEntry) : Nat :=
  mmap.foldl (fun last e =>
    if e.CountsForTop then
      let top := (e.base + e.length) % 2 ^ 64
      if top > last then top else last
    else last) 0

/-- `DIV_CEIL(lastUsablePage/PAGE_SIZE, 8)`. -/
def bitmapSizeOf (mmap : List MmapEntry) : Nat :=
  (lastUsablePage mmap / PAGE_SIZE + 8 - 1) / 8

/-- The second loop: the address of the bitmap and the map with the pages of
the bitmap taken off the entry that holds it. -/
def placeBitmap (bitmapSize : Nat) :
    List MmapEntry → Option (Nat × List MmapEntry)
  | [] => none
  | e :: mmap =>
      if ¬e.Freeable ∨ e.length < bitmapSize then
        (placeBitmap bitmapSize mmap).map fun (addr, mmap) => (addr, e :: mmap)
      else
        let bitmapPages := (bitmapSize + PAGE_SIZE - 1) / PAGE_SIZE
        some (e.base,
          { e with
            base := (e.base + bitmapPages * PAGE_SIZE) % 2 ^ 64
            length := (2 ^ 64 + e.length - bitmapPages * PAGE_SIZE) % 2 ^ 64 }
          :: mmap)

/-- The third loop: clear the bits of every region, and of the page behind
it. -/
def clearRegions (bitmap : Bitmap) (mmap : List MmapEntry) : Bitmap :=
  mmap.foldl (fun bitmap e =>
    if e.Freeable then
      clearBits bitmap (e.base / PAGE_SIZE) (e.length / PAGE_SIZE + 1)
    else bitmap) bitmap

theorem lastUsablePage_lt (mmap : List MmapEntry) :
    lastUsablePage mmap < 2 ^ 64 := by
  unfold lastUsablePage
  have hgen : ∀ last < 2 ^ 64, mmap.foldl (fun last e =>
      if e.CountsForTop then
        let top := (e.base + e.length) % 2 ^ 64
        if top > last then top else last
      else last) last < 2 ^ 64 := by
    induction mmap with
    | nil => exact fun last h => h
    | cons e mmap ih =>
        intro last h
        refine ih _ ?_
        dsimp only
        split
        · split
          · exact Nat.mod_lt _ (by decide)
          · exact h
        · exact h
  exact hgen 0 (by decide)

theorem bitmapSizeOf_fits (mmap : List MmapEntry) :
    8 * bitmapSizeOf mmap * PAGE_SIZE ≤ 2 ^ 64 := by
  have hlt := lastUsablePage_lt mmap
  unfold bitmapSizeOf PAGE_SIZE
  omega

/-- `PMM::init`: the statics it leaves and the edited map.  Without room for
the bitmap the pointer stays null. -/
def init (mem : ByteMem) (mmap : List MmapEntry) :
    Except Fault (Pmm × List MmapEntry) :=
  match placeBitmap (bitmapSizeOf mmap) mmap with
  | none => .error .nullDeref
  | some (bitmap, mmap') =>
      let bytes : Bitmap := fun i =>
        if i < bitmapSizeOf mmap then 0xFF else mem (bitmap + i)
      .ok (⟨clearRegions bytes mmap', bitmapSizeOf mmap, bitmapSizeOf_fits mmap⟩,
        mmap')

end Pmm

/-! ## What the memory map means -/

namespace MmapEntry

/-- First page of an entry. -/
def firstPage (e : MmapEntry) : Nat := e.base / PAGE_SIZE

/-- The page behind an entry. -/
def endPage (e : MmapEntry) : Nat := (e.base + e.length) / PAGE_SIZE

/-- Page `i` lies in the entry. -/
def HasPage (e : MmapEntry) (i : Nat) : Prop := e.firstPage ≤ i ∧ i < e.endPage

/-- The entry without its first `pages` pages. -/
def shrink (e : MmapEntry) (pages : Nat) : MmapEntry :=
  { e with
    base := e.base + pages * PAGE_SIZE
    length := e.length - pages * PAGE_SIZE }

/-- Address `a` lies in the entry. -/
def HasAddr (e : MmapEntry) (a : Nat) : Prop :=
  e.base ≤ a ∧ a < e.base + e.length

/-- Two entries of which one is freeable do not overlap. -/
def Apart (e f : MmapEntry) : Prop :=
  e.Freeable ∨ f.Freeable → ∀ a, e.HasAddr a → ¬f.HasAddr a

instance : Std.Symm Apart :=
  ⟨fun _ _ h hfree a hf he => h hfree.symm a he hf⟩

end MmapEntry

/-- A memory map as the boot protocol promises it: entries are ranges of the
address space, and the freeable ones are made of whole pages and overlap no
other entry. -/
structure Mmap where
  entries : List MmapEntry
  fits : ∀ e ∈ entries, e.base + e.length < 2 ^ 64
  aligned : ∀ e ∈ entries, e.Freeable →
    PAGE_SIZE ∣ e.base ∧ PAGE_SIZE ∣ e.length
  apart : entries.Pairwise MmapEntry.Apart

namespace Mmap

/-- The end of the memory that the bitmap has to cover. -/
def top (m : Mmap) : Nat :=
  ((m.entries.filter (·.CountsForTop)).map fun e => e.base + e.length).foldr max 0

/-- One bit for each page below the top, in whole bytes. -/
def bitmapBytes (m : Mmap) : Nat := (m.top / PAGE_SIZE + 7) / 8

/-- The entry that receives the bitmap: the first freeable one it fits in. -/
def host (m : Mmap) : Option MmapEntry :=
  m.entries.find? fun e => e.Freeable ∧ m.bitmapBytes ≤ e.length

/-- The pages the bitmap takes. -/
def bitmapPages (m : Mmap) : Nat := (m.bitmapBytes + PAGE_SIZE - 1) / PAGE_SIZE

/-- Page `i` holds a part of the bitmap. -/
def BitmapPage (m : Mmap) (i : Nat) : Prop :=
  ∃ e, m.host = some e ∧ e.firstPage ≤ i ∧ i < e.firstPage + m.bitmapPages

/-- Page `i` is memory the kernel may hand out. -/
def Usable (m : Mmap) (i : Nat) : Prop :=
  (∃ e ∈ m.entries, e.Freeable ∧ e.HasPage i) ∧ ¬m.BitmapPage i

/-- The usable pages are exactly those marked free. -/
def Exact (m : Mmap) (p : Pmm) : Prop :=
  ∀ i, (i < p.pages ∧ p.bitmap.isBitSet i = false) ↔ m.Usable i

/-- No run of `alloc` and `free` obtains a page that is not usable, in
particular none that meets another entry of the map. -/
def AllocSafe (m : Mmap) (p : Pmm) : Prop :=
  ∀ mem ops s, Run PmmStep ⟨p, mem, []⟩ ops s →
    ∀ f ∈ s.live, ∀ i, f.Has i → m.Usable i ∧
      ∀ e ∈ m.entries, ¬e.Freeable → ∀ a, a / PAGE_SIZE = i → ¬e.HasAddr a

/-- Every usable page has a bit. -/
def Covered (m : Mmap) : Prop := ∀ i, m.Usable i → i < 8 * m.bitmapBytes

/-- The page behind a freeable entry has no bit or is usable itself. -/
def Guarded (m : Mmap) : Prop :=
  ∀ e ∈ m.entries, e.Freeable → e.endPage < 8 * m.bitmapBytes →
    m.Usable e.endPage

/-! ## The passes against their meaning -/

variable {m : Mmap} {e f h : MmapEntry} {i : Nat}

theorem lastUsablePage_eq (m : Mmap) : Pmm.lastUsablePage m.entries = m.top := by
  have hgen : ∀ (es : List MmapEntry), (∀ e ∈ es, e.base + e.length < 2 ^ 64) →
      ∀ last, es.foldl (fun last e =>
        if e.CountsForTop then
          let top := (e.base + e.length) % 2 ^ 64
          if top > last then top else last
        else last) last =
      max last (((es.filter (·.CountsForTop)).map
        fun e => e.base + e.length).foldr max 0) := by
    intro es hfits
    induction es with
    | nil => simp
    | cons e es ih =>
        intro last
        have hmod := Nat.mod_eq_of_lt (hfits e (by simp))
        rw [List.foldl_cons, ih fun f hf => hfits f (by simp [hf])]
        by_cases htop : e.CountsForTop
        · rw [List.filter_cons_of_pos (by simpa using htop), List.map_cons,
            List.foldr_cons, ← Nat.max_assoc]
          simp only [htop, if_true, hmod]
          congr 1
          rcases Nat.lt_or_ge last (e.base + e.length) with hlt | hge
          · rw [if_pos hlt, Nat.max_eq_right (Nat.le_of_lt hlt)]
          · rw [if_neg (Nat.not_lt.mpr hge), Nat.max_eq_left hge]
        · rw [List.filter_cons_of_neg (by simpa using htop)]
          simp only [htop, if_false]
  rw [Pmm.lastUsablePage, hgen _ m.fits, Nat.zero_max, Mmap.top]

theorem bitmapSizeOf_eq (m : Mmap) : Pmm.bitmapSizeOf m.entries = m.bitmapBytes := by
  rw [Pmm.bitmapSizeOf, lastUsablePage_eq]
  rfl

/-- The bitmap goes to the host, whose entry loses the bitmap's pages. -/
theorem placeBitmap_eq {bitmapSize : Nat} {l r : List MmapEntry}
    (hl : ∀ e ∈ l, ¬(e.Freeable ∧ bitmapSize ≤ e.length))
    (hh : h.Freeable ∧ bitmapSize ≤ h.length) :
    Pmm.placeBitmap bitmapSize (l ++ h :: r) = some (h.base, l ++
      { h with
        base := (h.base + (bitmapSize + PAGE_SIZE - 1) / PAGE_SIZE * PAGE_SIZE) % 2 ^ 64
        length := (2 ^ 64 + h.length -
          (bitmapSize + PAGE_SIZE - 1) / PAGE_SIZE * PAGE_SIZE) % 2 ^ 64 } :: r) := by
  induction l with
  | nil =>
      have hnot : ¬(¬h.Freeable ∨ h.length < bitmapSize) := by
        rintro (hf | hlt)
        · exact hf hh.1
        · omega
      simp only [List.nil_append, Pmm.placeBitmap, if_neg hnot]
  | cons e l ih =>
      have hskip : ¬e.Freeable ∨ e.length < bitmapSize := by
        by_contra hcontra
        push Not at hcontra
        exact hl e (by simp) hcontra
      rw [List.cons_append, Pmm.placeBitmap, if_pos hskip,
        ih fun f hf => hl f (by simp [hf])]
      rfl

theorem isBitSet_clearRegions (bitmap : Bitmap) (es : List MmapEntry) (i : Nat) :
    (Pmm.clearRegions bitmap es).isBitSet i = false ↔
      bitmap.isBitSet i = false ∨ ∃ e ∈ es, e.Freeable ∧
        e.base / PAGE_SIZE ≤ i ∧ i ≤ e.base / PAGE_SIZE + e.length / PAGE_SIZE := by
  unfold Pmm.clearRegions
  induction es generalizing bitmap with
  | nil => simp
  | cons e es ih =>
      rw [List.foldl_cons, ih]
      by_cases hf : e.Freeable
      · simp only [hf, if_true, Pmm.isBitSet_clearBits, List.mem_cons,
          exists_eq_or_imp, true_and, Bool.and_eq_false_iff, Bool.not_eq_false',
          decide_eq_true_eq]
        rw [show i < e.base / PAGE_SIZE + (e.length / PAGE_SIZE + 1) ↔
          i ≤ e.base / PAGE_SIZE + e.length / PAGE_SIZE by omega]
        tauto
      · simp only [hf, if_false, List.mem_cons, exists_eq_or_imp, false_and,
          false_or]

/-- A page of a freeable entry lies in it with its first byte. -/
theorem hasPage_iff (he : e ∈ m.entries) (hf : e.Freeable) :
    e.HasPage i ↔ e.HasAddr (i * PAGE_SIZE) := by
  obtain ⟨⟨b, hb⟩, ⟨n, hn⟩⟩ := m.aligned e he hf
  unfold MmapEntry.HasPage MmapEntry.HasAddr MmapEntry.firstPage MmapEntry.endPage
  unfold PAGE_SIZE at *
  omega

theorem endPage_eq (he : e ∈ m.entries) (hf : e.Freeable) :
    e.endPage = e.base / PAGE_SIZE + e.length / PAGE_SIZE := by
  obtain ⟨⟨b, hb⟩, ⟨n, hn⟩⟩ := m.aligned e he hf
  unfold MmapEntry.endPage
  unfold PAGE_SIZE at *
  omega

/-- Where the second pass finds its place: `h` is the host, between the
entries `l` it skips and the entries `r` it does not look at. -/
structure Placed (m : Mmap) (h : MmapEntry) (l r : List MmapEntry) : Prop where
  host_eq : m.host = some h
  split : m.entries = l ++ h :: r
  skipped : ∀ e ∈ l, ¬(e.Freeable ∧ m.bitmapBytes ≤ e.length)
  chosen : h.Freeable ∧ m.bitmapBytes ≤ h.length

theorem exists_placed (hhost : m.host = some h) : ∃ l r, Placed m h l r := by
  obtain ⟨hh, l, r, hsplit, hl⟩ := List.find?_eq_some_iff_append.mp hhost
  simp only [decide_eq_true_eq, Bool.not_eq_true', decide_eq_false_iff_not]
    at hh hl
  exact ⟨l, r, hhost, hsplit, hl, hh⟩

namespace Placed

variable {l r : List MmapEntry}

theorem mem (hp : Placed m h l r) : h ∈ m.entries := by simp [hp.split]

theorem mem_iff (hp : Placed m h l r) :
    e ∈ m.entries ↔ e = h ∨ e ∈ l ++ r := by
  rw [hp.split]
  simp only [List.mem_append, List.mem_cons]
  tauto

theorem bitmapPage_iff (hp : Placed m h l r) :
    m.BitmapPage i ↔ h.firstPage ≤ i ∧ i < h.firstPage + m.bitmapPages := by
  simp [Mmap.BitmapPage, hp.host_eq]

/-- The host is made of whole pages, so it has room for the bitmap's pages. -/
theorem room (hp : Placed m h l r) : m.bitmapPages * PAGE_SIZE ≤ h.length := by
  obtain ⟨_, n, hn⟩ := m.aligned h hp.mem hp.chosen.1
  have hle := hp.chosen.2
  unfold Mmap.bitmapPages
  unfold PAGE_SIZE at *
  omega

theorem shrink_firstPage (hp : Placed m h l r) :
    (h.shrink m.bitmapPages).base / PAGE_SIZE = h.firstPage + m.bitmapPages := by
  obtain ⟨⟨b, hb⟩, _⟩ := m.aligned h hp.mem hp.chosen.1
  simp only [MmapEntry.shrink, MmapEntry.firstPage]
  unfold PAGE_SIZE at *
  omega

theorem shrink_endPage (hp : Placed m h l r) :
    (h.shrink m.bitmapPages).base / PAGE_SIZE +
      (h.shrink m.bitmapPages).length / PAGE_SIZE = h.endPage := by
  obtain ⟨⟨b, hb⟩, n, hn⟩ := m.aligned h hp.mem hp.chosen.1
  have hroom := hp.room
  simp only [MmapEntry.shrink, MmapEntry.endPage]
  unfold PAGE_SIZE at *
  omega

theorem firstPage_le (hp : Placed m h l r) :
    h.firstPage + m.bitmapPages ≤ h.endPage := by
  rw [← hp.shrink_firstPage, ← hp.shrink_endPage]
  exact Nat.le_add_right _ _

/-- The bitmap's pages are in no other freeable entry. -/
theorem not_bitmapPage (hp : Placed m h l r) (he : e ∈ l ++ r)
    (hf : e.Freeable) (hi : e.HasPage i) : ¬m.BitmapPage i := by
  intro hb
  rw [hp.bitmapPage_iff] at hb
  have hle := hp.firstPage_le
  have hih : h.HasPage i := ⟨hb.1, by omega⟩
  have hea := (hasPage_iff (hp.mem_iff.mpr (.inr he)) hf).mp hi
  have hha := (hasPage_iff hp.mem hp.chosen.1).mp hih
  have hpair := m.apart
  rw [hp.split, List.pairwise_append, List.pairwise_cons] at hpair
  rcases List.mem_append.mp he with he | he
  · exact hpair.2.2 e he h (by simp) (.inl hf) _ hea hha
  · exact hpair.2.1.1 e he (.inl hp.chosen.1) _ hha hea

/-- The pages the third pass clears. -/
theorem cleared_iff (hp : Placed m h l r) :
    (∃ e ∈ l ++ h.shrink m.bitmapPages :: r, e.Freeable ∧
      e.base / PAGE_SIZE ≤ i ∧ i ≤ e.base / PAGE_SIZE + e.length / PAGE_SIZE) ↔
    m.Usable i ∨ ∃ e ∈ m.entries, e.Freeable ∧ i = e.endPage := by
  have hmem : ∀ {f}, f ∈ l ++ h.shrink m.bitmapPages :: r ↔
      f = h.shrink m.bitmapPages ∨ f ∈ l ++ r := by
    intro f
    simp only [List.mem_append, List.mem_cons]
    tauto
  have hother : ∀ {f}, f ∈ l ++ r → f ∈ m.entries := fun hf =>
    hp.mem_iff.mpr (.inr hf)
  constructor
  · rintro ⟨e, he, hf, hlo, hhi⟩
    rcases hmem.mp he with rfl | he
    · rw [hp.shrink_firstPage] at hlo
      rw [hp.shrink_endPage] at hhi
      rcases Nat.eq_or_lt_of_le hhi with heq | hlt
      · exact .inr ⟨h, hp.mem, hp.chosen.1, heq⟩
      · refine .inl ⟨⟨h, hp.mem, hp.chosen.1, by omega, hlt⟩, ?_⟩
        rw [hp.bitmapPage_iff]
        omega
    · rw [← endPage_eq (hother he) hf] at hhi
      rcases Nat.eq_or_lt_of_le hhi with heq | hlt
      · exact .inr ⟨e, hother he, hf, heq⟩
      · exact .inl ⟨⟨e, hother he, hf, hlo, hlt⟩,
          hp.not_bitmapPage he hf ⟨hlo, hlt⟩⟩
  · rintro (⟨⟨e, he, hf, hlo, hhi⟩, hnb⟩ | ⟨e, he, hf, rfl⟩)
    · rcases hp.mem_iff.mp he with rfl | he'
      · rw [hp.bitmapPage_iff] at hnb
        refine ⟨_, hmem.mpr (.inl rfl), hf, ?_, ?_⟩
        · rw [hp.shrink_firstPage]
          omega
        · rw [hp.shrink_endPage]
          omega
      · refine ⟨e, hmem.mpr (.inr he'), hf, hlo, ?_⟩
        rw [← endPage_eq he hf]
        omega
    · rcases hp.mem_iff.mp he with rfl | he'
      · refine ⟨_, hmem.mpr (.inl rfl), hf, ?_, ?_⟩
        · rw [hp.shrink_firstPage]
          exact hp.firstPage_le
        · rw [hp.shrink_endPage]
      · refine ⟨e, hmem.mpr (.inr he'), hf, ?_, ?_⟩
        · rw [endPage_eq he hf]
          exact Nat.le_add_right _ _
        · rw [endPage_eq he hf]

end Placed

/-- The second pass on the whole map, whose arithmetic does not wrap. -/
theorem placeBitmap_of_placed {l r : List MmapEntry} (hp : Placed m h l r) :
    Pmm.placeBitmap m.bitmapBytes m.entries =
      some (h.base, l ++ h.shrink m.bitmapPages :: r) := by
  have hfits := m.fits h hp.mem
  have hroom := hp.room
  have hplace := placeBitmap_eq (r := r) hp.skipped hp.chosen
  rw [← hp.split] at hplace
  change Pmm.placeBitmap m.bitmapBytes m.entries = some (h.base, l ++
    { h with
      base := (h.base + m.bitmapPages * PAGE_SIZE) % 2 ^ 64
      length := (2 ^ 64 + h.length - m.bitmapPages * PAGE_SIZE) % 2 ^ 64 } :: r)
    at hplace
  rw [Nat.mod_eq_of_lt (by omega : h.base + m.bitmapPages * PAGE_SIZE < 2 ^ 64),
    show (2 ^ 64 + h.length - m.bitmapPages * PAGE_SIZE) % 2 ^ 64 =
      h.length - m.bitmapPages * PAGE_SIZE by omega] at hplace
  exact hplace

/-- What `init` marks free: the usable pages, and the page behind every
freeable entry, as far as they have a bit. -/
theorem marked_free_iff (hhost : m.host = some h) (mem : ByteMem) :
    ∃ p mmap', Pmm.init mem m.entries = .ok (p, mmap') ∧
      p.pages = 8 * m.bitmapBytes ∧
      ∀ i < p.pages, p.bitmap.isBitSet i = false ↔
        m.Usable i ∨ ∃ e ∈ m.entries, e.Freeable ∧ i = e.endPage := by
  obtain ⟨l, r, hp⟩ := exists_placed hhost
  have hplace := placeBitmap_of_placed hp
  obtain ⟨p, hinit, hsize, hbits⟩ : ∃ p : Pmm,
      Pmm.init mem m.entries = .ok (p, l ++ h.shrink m.bitmapPages :: r) ∧
      p.bitmapSize = m.bitmapBytes ∧
      p.bitmap = Pmm.clearRegions
        (fun i => if i < m.bitmapBytes then 0xFF else mem (h.base + i))
        (l ++ h.shrink m.bitmapPages :: r) := by
    unfold Pmm.init
    simp only [bitmapSizeOf_eq, hplace]
    exact ⟨_, rfl, rfl, rfl⟩
  refine ⟨p, _, hinit, by rw [Pmm.pages, hsize, Nat.mul_comm], fun i hi => ?_⟩
  -- before the third pass every bit of the bitmap is set
  have hset : Bitmap.isBitSet
      (fun i => if i < m.bitmapBytes then 0xFF else mem (h.base + i)) i = true := by
    rw [Pmm.pages, hsize] at hi
    have hbyte : i / 8 < m.bitmapBytes := by omega
    rw [Bitmap.isBitSet_eq_testBit]
    simp only [hbyte, if_true]
    exact Nat.testBit_two_pow_sub_one 8 _ |>.trans (by simp; omega)
  rw [hbits, isBitSet_clearRegions, hset, hp.cleared_iff]
  simp

/-! ## When the result is the intended one -/

/-- A usable page meets no entry of another kind. -/
theorem Usable.not_hasAddr (hu : m.Usable i) (he : e ∈ m.entries)
    (hne : ¬e.Freeable) {a : Nat} (ha : a / PAGE_SIZE = i) : ¬e.HasAddr a := by
  obtain ⟨⟨f, hf, hfree, hlo, hhi⟩, _⟩ := hu
  have hfa : f.HasAddr a := by
    obtain ⟨⟨b, hb⟩, ⟨n, hn⟩⟩ := m.aligned f hf hfree
    unfold MmapEntry.firstPage at hlo
    unfold MmapEntry.endPage at hhi
    unfold MmapEntry.HasAddr
    unfold PAGE_SIZE at *
    omega
  have hapart : f.Apart e := m.apart.forall hf he fun heq => hne (heq ▸ hfree)
  exact hapart (.inl hfree) a hfa

theorem Exact.allocSafe {p : Pmm} (hp : m.Exact p) : m.AllocSafe p := by
  intro mem ops s hrun f hf i hi
  have hu : m.Usable i :=
    live_of_free (fun i hlt hbit => (hp i).mp ⟨hlt, hbit⟩) hrun f hf i hi
  exact ⟨hu, fun e he hne a ha => hu.not_hasAddr he hne ha⟩

/-- `init` marks exactly the usable pages free, and no later `alloc` returns
another page, iff every usable page has a bit and no freeable entry ends below
the last bit in front of a page that is not usable. -/
theorem init_exact_iff (m : Mmap) (mem : ByteMem)
    (hroom : ∃ e ∈ m.entries, e.Freeable ∧ m.bitmapBytes ≤ e.length) :
    (∃ p mmap', Pmm.init mem m.entries = .ok (p, mmap') ∧
      m.Exact p ∧ m.AllocSafe p) ↔ m.Covered ∧ m.Guarded := by
  obtain ⟨h, hhost⟩ : ∃ h, m.host = some h := by
    rw [← Option.isSome_iff_exists, Mmap.host, List.find?_isSome]
    simpa using hroom
  obtain ⟨p, mmap', hinit, hpages, hfree⟩ := marked_free_iff hhost mem
  have hexact : m.Exact p ↔ m.Covered ∧ m.Guarded := by
    constructor
    · intro hex
      refine ⟨fun i hu => hpages ▸ ((hex i).mpr hu).1, ?_⟩
      intro e he hf hlt
      rw [← hpages] at hlt
      exact (hex _).mp ⟨hlt, (hfree _ hlt).mpr (.inr ⟨e, he, hf, rfl⟩)⟩
    · rintro ⟨hcov, hguard⟩ i
      constructor
      · rintro ⟨hlt, hbit⟩
        rcases (hfree i hlt).mp hbit with hu | ⟨e, he, hf, rfl⟩
        · exact hu
        · exact hguard e he hf (hpages ▸ hlt)
      · intro hu
        have hlt : i < p.pages := hpages ▸ hcov i hu
        exact ⟨hlt, (hfree i hlt).mpr (.inl hu)⟩
  rw [← hexact]
  constructor
  · rintro ⟨p', mmap'', hinit', hex, _⟩
    rw [hinit, Except.ok.injEq, Prod.mk.injEq] at hinit'
    exact hinit'.1 ▸ hex
  · intro hex
    exact ⟨p, mmap', hinit, hex, hex.allocSafe⟩

/-- Seven usable pages below a top of eight: nothing follows the entry. -/
def sevenPages : Mmap where
  entries := [⟨0x1000, 0x7000, .usable⟩]
  fits := by decide
  aligned := by decide
  apart := List.pairwise_singleton _ _

theorem init_exact_sevenPages :
    ∃ p mmap', Pmm.init (fun _ => 0) sevenPages.entries = .ok (p, mmap') ∧
      sevenPages.Exact p ∧ sevenPages.AllocSafe p := by
  refine (init_exact_iff sevenPages (fun _ => 0)
    ⟨⟨0x1000, 0x7000, .usable⟩, by decide⟩).mpr ⟨?_, ?_⟩
  · rintro i ⟨⟨e, he, _, _, hhi⟩, _⟩
    obtain rfl := List.mem_singleton.mp he
    exact hhi
  · intro e he _ hlt
    obtain rfl := List.mem_singleton.mp he
    exact absurd hlt (by decide)

/-- Two usable pages directly in front of the kernel. -/
def beforeKernel : Mmap where
  entries := [⟨0x1000, 0x2000, .usable⟩, ⟨0x3000, 0x1000, .kernelAndModules⟩]
  fits := by decide
  aligned := by decide
  apart := by
    refine List.pairwise_cons.mpr ⟨?_, List.pairwise_singleton _ _⟩
    intro f hf _ a ha hfa
    rw [List.mem_singleton] at hf
    subst hf
    simp only [MmapEntry.HasAddr] at ha hfa
    omega

/-- The kernel's page is marked free and the second `alloc` hands it out. -/
theorem init_frees_kernel_page :
    (∃ e ∈ beforeKernel.entries,
      e.Freeable ∧ beforeKernel.bitmapBytes ≤ e.length) ∧
    ∃ p mmap', Pmm.init (fun _ => 0) beforeKernel.entries = .ok (p, mmap') ∧
      ¬beforeKernel.Exact p ∧ ¬beforeKernel.AllocSafe p := by
  refine ⟨⟨⟨0x1000, 0x2000, .usable⟩, by decide⟩, ?_⟩
  have hnot : ¬beforeKernel.Usable 3 := by
    rintro ⟨⟨e, he, hf, _, hhi⟩, _⟩
    rcases List.mem_cons.mp he with rfl | he
    · exact absurd hhi (by decide)
    · obtain rfl := List.mem_singleton.mp he
      exact absurd hf (by decide)
  refine ⟨_, _, rfl, fun hex => ?_, fun hsafe => ?_⟩
  · exact hnot ((hex 3).mp (by decide))
  · refine hnot (hsafe (fun _ => 0) [.alloc 1, .alloc 1] _
      (.cons ⟨by decide, rfl⟩ (.cons ⟨by decide, rfl⟩ (.nil _)))
      ⟨0x3000, 1⟩ ?_ 3 ⟨by decide, by decide⟩).1
    decide +kernel

end Mmap

/-! ## The bits that are cleared -/

namespace Pmm

/-- The bits that one entry's round of the third loop clears, in order. -/
def clearedBitsOf (e : MmapEntry) : List Nat :=
  if e.Freeable then
    List.range' (e.base / PAGE_SIZE) (e.length / PAGE_SIZE + 1)
  else []

/-- The map as the third loop reads it. -/
def editedMap (mmap : List MmapEntry) : List MmapEntry :=
  match placeBitmap (bitmapSizeOf mmap) mmap with
  | none => mmap
  | some (_, mmap') => mmap'

/-- Every argument of `clear_bit` in `PMM::init`, in order. -/
def clearedBits (mmap : List MmapEntry) : List Nat :=
  (editedMap mmap).flatMap clearedBitsOf

theorem clearBits_eq_foldl (bitmap : Bitmap) (page count : Nat) :
    clearBits bitmap page count =
      (List.range' page count).foldl Bitmap.clearBit bitmap := by
  induction count generalizing bitmap page with
  | zero => rfl
  | succ count ih =>
      rw [clearBits, ih, List.range'_succ, List.foldl_cons]

theorem clearRegions_eq_foldl (bitmap : Bitmap) (mmap : List MmapEntry) :
    clearRegions bitmap mmap =
      (mmap.flatMap clearedBitsOf).foldl Bitmap.clearBit bitmap := by
  unfold clearRegions
  induction mmap generalizing bitmap with
  | nil => rfl
  | cons e mmap ih =>
      rw [List.foldl_cons, ih, List.flatMap_cons, List.foldl_append]
      by_cases hf : e.Freeable
      · simp only [hf, if_true, clearBits_eq_foldl, clearedBitsOf]
      · simp only [hf, if_false, clearedBitsOf, List.foldl_nil]

/-- `init` writes the bitmap through `clear_bit` at `clearedBits` and nowhere
else. -/
theorem init_clears {mem : ByteMem} {mmap mmap' : List MmapEntry} {p : Pmm}
    (hinit : init mem mmap = .ok (p, mmap')) :
    ∃ addr, placeBitmap (bitmapSizeOf mmap) mmap = some (addr, mmap') ∧
      p.bitmapSize = bitmapSizeOf mmap ∧
      p.bitmap = (clearedBits mmap).foldl Bitmap.clearBit
        (fun i => if i < bitmapSizeOf mmap then 0xFF else mem (addr + i)) := by
  unfold init at hinit
  unfold clearedBits editedMap
  cases hplace : placeBitmap (bitmapSizeOf mmap) mmap with
  | none =>
      rw [hplace] at hinit
      cases hinit
  | some placed =>
      rw [hplace] at hinit
      cases hinit
      exact ⟨placed.1, rfl, rfl, clearRegions_eq_foldl _ _⟩

end Pmm

namespace Mmap

variable {m : Mmap}

/-- Without a host the map is left as it is. -/
theorem editedMap_of_no_host (hhost : m.host = none) :
    Pmm.editedMap m.entries = m.entries := by
  have hnone : ∀ es : List MmapEntry,
      (∀ e ∈ es, ¬(e.Freeable ∧ m.bitmapBytes ≤ e.length)) →
      Pmm.placeBitmap m.bitmapBytes es = none := by
    intro es hes
    induction es with
    | nil => rfl
    | cons e es ih =>
        have hskip : ¬e.Freeable ∨ e.length < m.bitmapBytes := by
          by_contra hcontra
          push Not at hcontra
          exact hes e (by simp) hcontra
        rw [Pmm.placeBitmap, if_pos hskip, ih fun f hf => hes f (by simp [hf])]
        rfl
  have hentries : ∀ e ∈ m.entries, ¬(e.Freeable ∧ m.bitmapBytes ≤ e.length) := by
    simpa [Mmap.host] using hhost
  rw [Pmm.editedMap, bitmapSizeOf_eq, hnone m.entries hentries]

/-- With a host the map has lost the bitmap's pages. -/
theorem editedMap_of_placed {h : MmapEntry} {l r : List MmapEntry}
    (hp : Placed m h l r) :
    Pmm.editedMap m.entries = l ++ h.shrink m.bitmapPages :: r := by
  rw [Pmm.editedMap, bitmapSizeOf_eq, placeBitmap_of_placed hp]

theorem mem_clearedBitsOf {e : MmapEntry} {i : Nat} : i ∈ Pmm.clearedBitsOf e ↔
    e.Freeable ∧ e.base / PAGE_SIZE ≤ i ∧
      i ≤ e.base / PAGE_SIZE + e.length / PAGE_SIZE := by
  unfold Pmm.clearedBitsOf
  by_cases hf : e.Freeable
  · simp only [hf, if_true, List.mem_range'_1, true_and]
    omega
  · simp only [hf, if_false, List.not_mem_nil, false_and]

/-- The bits cleared: those of the usable pages and of the page behind each
freeable entry. -/
theorem mem_clearedBits {i : Nat} : i ∈ Pmm.clearedBits m.entries ↔
    m.Usable i ∨ ∃ e ∈ m.entries, e.Freeable ∧ i = e.endPage := by
  unfold Pmm.clearedBits
  rw [List.mem_flatMap]
  simp only [mem_clearedBitsOf]
  cases hhost : m.host with
  | none =>
      have hbitmap : ¬m.BitmapPage i := by simp [BitmapPage, hhost]
      rw [editedMap_of_no_host hhost]
      constructor
      · intro hex
        obtain ⟨e, he, hf, hlo, hhi⟩ := hex
        rw [← endPage_eq he hf] at hhi
        rcases Nat.eq_or_lt_of_le hhi with heq | hlt
        · exact .inr ⟨e, he, hf, heq⟩
        · exact .inl ⟨⟨e, he, hf, hlo, hlt⟩, hbitmap⟩
      · intro hor
        rcases hor with ⟨⟨e, he, hf, hlo, hhi⟩, _⟩ | ⟨e, he, hf, hi⟩
        · refine ⟨e, he, hf, hlo, ?_⟩
          rw [← endPage_eq he hf]
          exact Nat.le_of_lt hhi
        · refine ⟨e, he, hf, ?_, ?_⟩
          · rw [hi, endPage_eq he hf]
            exact Nat.le_add_right _ _
          · rw [hi, endPage_eq he hf]
  | some h =>
      obtain ⟨l, r, hp⟩ := exists_placed hhost
      rw [editedMap_of_placed hp]
      exact hp.cleared_iff

/-- Every usable page lies below the end of a freeable entry. -/
theorem Usable.lt_endPage {i : Nat} (hu : m.Usable i) :
    ∃ e ∈ m.entries, e.Freeable ∧ i < e.endPage := by
  obtain ⟨⟨e, he, hf, _, hhi⟩, _⟩ := hu
  exact ⟨e, he, hf, hhi⟩

/-- `init` stays inside its bitmap iff every freeable entry ends below the last
page that has a bit: an entry that ends with the bitmap, or above the top, has
the bit behind its last page cleared beyond the bitmap. -/
theorem cleared_inside_iff (m : Mmap) :
    (∀ i ∈ Pmm.clearedBits m.entries, i < 8 * Pmm.bitmapSizeOf m.entries) ↔
      ∀ e ∈ m.entries, e.Freeable → e.endPage < 8 * m.bitmapBytes := by
  rw [bitmapSizeOf_eq]
  constructor
  · intro hinside e he hf
    exact hinside _ (mem_clearedBits.mpr (.inr ⟨e, he, hf, rfl⟩))
  · intro hends i hi
    rcases mem_clearedBits.mp hi with hu | ⟨e, he, hf, heq⟩
    · obtain ⟨e, he, hf, hlt⟩ := hu.lt_endPage
      exact hlt.trans (hends e he hf)
    · rw [heq]
      exact hends e he hf

/-- The page behind seven usable pages has bit 8 of a bitmap of one byte. -/
theorem sevenPages_clears_outside :
    ∃ p mmap', Pmm.init (fun _ => 0) sevenPages.entries = .ok (p, mmap') ∧
      p.bitmapSize = 1 ∧ ∃ i ∈ Pmm.clearedBits sevenPages.entries,
        ¬i < 8 * Pmm.bitmapSizeOf sevenPages.entries :=
  ⟨_, _, rfl, by decide, 8, by decide, by decide⟩

end Mmap

end Toystar.Memory
