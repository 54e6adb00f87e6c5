import Toystar.Kernel.Lock
import Toystar.Verified.LittleEndian

/-!
# The MADT

`madt_table` and its entries as `Apic::init` reads them: the loop goes from entry to entry
by their length bytes until it has passed the length that the header declares.

The table is what the memory holds from its first byte on, addresses being offsets from
there.  The structures have their x86-64 layout; the one of the address override is not
packed, so `addr` is 8 bytes behind the start of the entry, where the table has it at 4.
-/

namespace Toystar.X86

open Toystar.Kernel
open Toystar.Verified

/-! ## Layouts -/

def u16 (m : ByteMem) (p : Nat) : UInt16 := .ofNat (m.readLE p 2)

def u32 (m : ByteMem) (p : Nat) : UInt32 := .ofNat (m.readLE p 4)

def u64 (m : ByteMem) (p : Nat) : UInt64 := .ofNat (m.readLE p 8)

/-- `madt_lapic` behind its header. -/
structure MadtLapic where
  processorId : UInt8
  apicId : UInt8
  flags : UInt32
deriving DecidableEq

/-- `madt_ioapic` behind its header. -/
structure MadtIoapic where
  ioapicId : UInt8
  reserved : UInt8
  ioapicAddr : UInt32
  gsib : UInt32
deriving DecidableEq

/-- `madt_iso` behind its header. -/
structure MadtIso where
  bus : UInt8
  irq : UInt8
  gsi : UInt32
  flags : UInt16
deriving DecidableEq

/-- `madt_addrOverride` behind its header. -/
structure MadtAddrOverride where
  reserved : UInt16
  addr : UInt64
deriving DecidableEq

def MadtLapic.read (m : ByteMem) (p : Nat) : MadtLapic := ⟨m (p + 2), m (p + 3), u32 m (p + 4)⟩

def MadtIoapic.read (m : ByteMem) (p : Nat) : MadtIoapic :=
  ⟨m (p + 2), m (p + 3), u32 m (p + 4), u32 m (p + 8)⟩

def MadtIso.read (m : ByteMem) (p : Nat) : MadtIso :=
  ⟨m (p + 2), m (p + 3), u32 m (p + 4), u16 m (p + 8)⟩

def MadtAddrOverride.read (m : ByteMem) (p : Nat) : MadtAddrOverride :=
  ⟨u16 m (p + 2), u64 m (p + 8)⟩

namespace Madt

/-- `LAPIC` of `enum Types`. -/
def LAPIC : UInt8 := 0

def IOAPIC : UInt8 := 1

def IOAPIC_ISO : UInt8 := 2

def LAPIC_AO : UInt8 := 5

/-- `madtTable->header.length`. -/
def length (m : ByteMem) : Nat := m.readLE 4 4

/-- `madtTable->lapic_addr`. -/
def lapicAddr (m : ByteMem) : UInt32 := u32 m 36

/-- `header.length - sizeof(sdt) - 8` in a `size_t`. -/
def entries (m : ByteMem) : Nat := (length m + 2 ^ 64 - 36 - 8) % 2 ^ 64

/-- `&madtTable->madt_entries[i]`. -/
def entry (i : Nat) : Nat := (44 + i) % 2 ^ 64

/-- `madtHeader->type`. -/
def type (m : ByteMem) (i : Nat) : UInt8 := m (entry i)

/-- `madtHeader->length`. -/
def lengthByte (m : ByteMem) (i : Nat) : UInt8 := m (entry (i + 1))

/-- The vectors of pointers that `Apic::init` fills. -/
structure Found where
  lapics : List Nat
  ioapics : List Nat
  isos : List Nat
  addressOverride : List Nat
deriving DecidableEq

def Found.empty : Found := ⟨[], [], [], []⟩

/-- `switch (madtHeader->type)`. -/
def Found.collect (found : Found) (type : UInt8) (p : Nat) : Found :=
  if type = LAPIC then { found with lapics := found.lapics ++ [p] }
  else if type = IOAPIC then { found with ioapics := found.ioapics ++ [p] }
  else if type = IOAPIC_ISO then { found with isos := found.isos ++ [p] }
  else if type = LAPIC_AO then { found with addressOverride := found.addressOverride ++ [p] }
  else found

/-- `i += madtHeader->length`. -/
def next (m : ByteMem) (i : Nat) : Nat := (i + (lengthByte m i).toNat) % 2 ^ 64

/-- The loop over the entries, from `i` on. -/
def scan (m : ByteMem) : Nat → Nat → Found → Except Fault Found
  | 0, _, _ => .error .fuel
  | fuel + 1, i, found =>
      if i < entries m then scan m fuel (next m i) (found.collect (type m i) (entry i))
      else .ok found

/-- `addressOverride[0]->addr`, or `lapic_addr`. -/
def localApicBase (m : ByteMem) (found : Found) : UInt64 :=
  match found.addressOverride with
  | p :: _ => (MadtAddrOverride.read m p).addr
  | [] => (lapicAddr m).toUInt64

/-- More fuel changes nothing. -/
theorem scan_mono {m : ByteMem} {fuel i : Nat} {found r : Found}
    (h : scan m fuel i found = .ok r) (k : Nat) : scan m (fuel + k) i found = .ok r := by
  induction fuel generalizing i found with
  | zero => cases h
  | succ fuel ih =>
      rw [Nat.add_right_comm, scan]
      rw [scan] at h
      split at h
      · rename_i hi
        rw [if_pos hi]
        exact ih h
      · rename_i hi
        rw [if_neg hi]
        exact h

/-- The loop has one outcome. -/
theorem scan_unique {m : ByteMem} {fuel fuel' i : Nat} {found r r' : Found}
    (h : scan m fuel i found = .ok r) (h' : scan m fuel' i found = .ok r') : r = r' := by
  have hr := scan_mono h fuel'
  have hr' := scan_mono h' fuel
  rw [Nat.add_comm, hr] at hr'
  exact Except.ok.inj hr'

/-! ## Leaving the table -/

/-- The types that are collected. -/
def Collected (type : UInt8) : Prop :=
  type = LAPIC ∨ type = IOAPIC ∨ type = IOAPIC_ISO ∨ type = LAPIC_AO

/-- A structure of `extent` bytes, by type, lies at the pointer in the declared length. -/
structure Found.Inside (found : Found) (m : ByteMem) (extent : UInt8 → Nat) : Prop where
  lapics : ∀ p ∈ found.lapics, p + extent LAPIC ≤ length m
  ioapics : ∀ p ∈ found.ioapics, p + extent IOAPIC ≤ length m
  isos : ∀ p ∈ found.isos, p + extent IOAPIC_ISO ≤ length m
  addressOverride : ∀ p ∈ found.addressOverride, p + extent LAPIC_AO ≤ length m

/-- If the entry is collected, its structure ends in the declared length. -/
def Room (m : ByteMem) (extent : UInt8 → Nat) (i : Nat) : Prop :=
  Collected (type m i) → entry i + extent (type m i) ≤ length m

/-- `sizeof` the structure of a type. -/
def sizeofEntry (type : UInt8) : Nat :=
  if type = LAPIC then 8 else if type = LAPIC_AO then 16 else 12

/-- The loop ends and has collected what lies in the declared length. -/
def ScanInside (m : ByteMem) (extent : UInt8 → Nat) : Prop :=
  ∃ fuel found, scan m fuel 0 .empty = .ok found ∧ found.Inside m extent

/-- Where the loop gets inside the table. -/
inductive Reached (m : ByteMem) : Nat → Prop
  | first : Reached m 0
  | next {i : Nat} (hi : Reached m i) (hlt : i < entries m) : Reached m (next m i)

variable {m : ByteMem} {extent : UInt8 → Nat} {found r : Found} {fuel i : Nat}

theorem inside_iff : found.Inside m extent ↔
    (∀ p ∈ found.lapics, p + extent LAPIC ≤ length m) ∧
    (∀ p ∈ found.ioapics, p + extent IOAPIC ≤ length m) ∧
    (∀ p ∈ found.isos, p + extent IOAPIC_ISO ≤ length m) ∧
    ∀ p ∈ found.addressOverride, p + extent LAPIC_AO ≤ length m :=
  ⟨fun h => ⟨h.lapics, h.ioapics, h.isos, h.addressOverride⟩,
    fun ⟨hl, hio, hiso, hao⟩ => ⟨hl, hio, hiso, hao⟩⟩

theorem forall_mem_concat {ps : List Nat} {q n : Nat} :
    (∀ p ∈ ps ++ [q], p + n ≤ length m) ↔ (∀ p ∈ ps, p + n ≤ length m) ∧ q + n ≤ length m := by
  rw [List.forall_mem_append, List.forall_mem_singleton]

theorem room_iff (hcol : Collected (type m i)) :
    Room m extent i ↔ entry i + extent (type m i) ≤ length m :=
  ⟨fun h => h hcol, fun h _ => h⟩

theorem inside_collect : (found.collect (type m i) (entry i)).Inside m extent ↔
    found.Inside m extent ∧ Room m extent i := by
  rw [Found.collect]
  split
  · rename_i ht
    rw [room_iff (.inl ht), ht, inside_iff, inside_iff, forall_mem_concat]
    tauto
  split
  · rename_i ht
    rw [room_iff (.inr (.inl ht)), ht, inside_iff, inside_iff, forall_mem_concat]
    tauto
  split
  · rename_i ht
    rw [room_iff (.inr (.inr (.inl ht))), ht, inside_iff, inside_iff, forall_mem_concat]
    tauto
  split
  · rename_i ht
    rw [room_iff (.inr (.inr (.inr ht))), ht, inside_iff, inside_iff, forall_mem_concat]
    tauto
  · rename_i hl hio hiso hao
    have hnot : ¬Collected (type m i) := by
      rintro (h | h | h | h)
      exacts [hl h, hio h, hiso h, hao h]
    exact ⟨fun h => ⟨h, fun hcol => absurd hcol hnot⟩, fun h => h.1⟩

/-- After some entries, each collected with room, the loop is behind the last. -/
def Leaves (m : ByteMem) (extent : UInt8 → Nat) (i : Nat) : Prop :=
  ∃ n, entries m ≤ (next m)^[n] i ∧ ∀ k < n, Room m extent ((next m)^[k] i)

theorem leaves_of_lt (hi : i < entries m) :
    Leaves m extent i ↔ Room m extent i ∧ Leaves m extent (next m i) := by
  constructor
  · rintro ⟨n, hend, hroom⟩
    cases n with
    | zero => exact absurd hend (Nat.not_le.mpr hi)
    | succ n =>
        exact ⟨hroom 0 (Nat.zero_lt_succ n), n, hend,
          fun k hk => hroom (k + 1) (Nat.succ_lt_succ hk)⟩
  · rintro ⟨hfirst, n, hend, hroom⟩
    refine ⟨n + 1, hend, fun k hk => ?_⟩
    cases k with
    | zero => exact hfirst
    | succ k => exact hroom k (Nat.lt_of_succ_lt_succ hk)

theorem scan_inside_iff :
    (∃ fuel r, scan m fuel i found = .ok r ∧ r.Inside m extent) ↔
      found.Inside m extent ∧ Leaves m extent i := by
  constructor
  · rintro ⟨fuel, r, hret, hin⟩
    induction fuel generalizing i found with
    | zero => cases hret
    | succ fuel ih =>
        rw [scan] at hret
        split at hret
        · rename_i hi
          obtain ⟨hcollect, hleaves⟩ := ih hret
          obtain ⟨hfound, hroom⟩ := inside_collect.mp hcollect
          exact ⟨hfound, (leaves_of_lt hi).mpr ⟨hroom, hleaves⟩⟩
        · rename_i hi
          cases hret
          exact ⟨hin, 0, Nat.le_of_not_lt hi, fun k hk => absurd hk (Nat.not_lt_zero k)⟩
  · rintro ⟨hfound, n, hend, hroom⟩
    induction n generalizing i found with
    | zero => exact ⟨1, found, if_neg (Nat.not_lt.mpr hend), hfound⟩
    | succ n ih =>
        by_cases hi : i < entries m
        · have hcollect := inside_collect.mpr ⟨hfound, hroom 0 (Nat.zero_lt_succ n)⟩
          obtain ⟨fuel, r, hret, hin⟩ :=
            ih hcollect hend fun k hk => hroom (k + 1) (Nat.succ_lt_succ hk)
          exact ⟨fuel + 1, r, (if_pos hi).trans hret, hin⟩
        · exact ⟨1, found, if_neg hi, hfound⟩

/-- An entry of length zero is read for ever. -/
theorem next_of_zero (hi : i < entries m) (hzero : lengthByte m i = 0) : next m i = i := by
  have hlt : i < 2 ^ 64 := lt_trans hi (Nat.mod_lt _ (by decide))
  rw [next, hzero]
  exact Nat.mod_eq_of_lt hlt

theorem scan_of_zero (hi : i < entries m) (hzero : lengthByte m i = 0) :
    scan m fuel i found = .error .fuel := by
  induction fuel generalizing found with
  | zero => rfl
  | succ fuel ih =>
      rw [scan, if_pos hi, next_of_zero hi hzero]
      exact ih

theorem entries_eq (hlen : 44 ≤ length m) : entries m = length m - 44 := by
  have hlt : length m < 2 ^ 32 := m.readLE_lt 4 4
  rw [entries]
  omega

/-- In a table with its fixed part the loop goes up. -/
theorem next_eq (hlen : 44 ≤ length m) (hi : i < entries m) :
    next m i = i + (lengthByte m i).toNat := by
  have hlt : length m < 2 ^ 32 := m.readLE_lt 4 4
  have hbyte := (lengthByte m i).toNat_lt
  have hentries := entries_eq hlen
  exact Nat.mod_eq_of_lt (by omega)

theorem leaves_of_reached (hi : Reached m i) (hleaves : Leaves m extent 0) :
    Leaves m extent i := by
  induction hi with
  | first => exact hleaves
  | next _ hlt ih => exact ((leaves_of_lt hlt).mp ih).2

theorem lengthByte_ne_zero (hi : i < entries m) (hleaves : Leaves m extent i) :
    lengthByte m i ≠ 0 := by
  intro hzero
  obtain ⟨n, hend, _⟩ := hleaves
  rw [Function.iterate_fixed (next_of_zero hi hzero)] at hend
  omega

theorem leaves_iff (hlen : 44 ≤ length m) :
    Leaves m extent 0 ↔ ∀ i, Reached m i → i < entries m →
      lengthByte m i ≠ 0 ∧ Room m extent i := by
  constructor
  · intro hleaves i hi hlt
    have hleaves := leaves_of_reached hi hleaves
    exact ⟨lengthByte_ne_zero hlt hleaves, ((leaves_of_lt hlt).mp hleaves).1⟩
  · intro hall
    -- what is left of the table gets smaller
    have hfrom : ∀ left i, entries m - i ≤ left → Reached m i → Leaves m extent i := by
      intro left
      induction left with
      | zero =>
          intro i hleft _
          exact ⟨0, by rw [Function.iterate_zero_apply]; omega,
            fun k hk => absurd hk (Nat.not_lt_zero k)⟩
      | succ left ih =>
          intro i hleft hi
          by_cases hlt : i < entries m
          · obtain ⟨hne, hroom⟩ := hall i hi hlt
            have hpos : 0 < (lengthByte m i).toNat := by
              rw [Nat.pos_iff_ne_zero]
              exact fun hzero => hne (UInt8.toNat_inj.mp hzero)
            have hnext := next_eq hlen hlt
            exact (leaves_of_lt hlt).mpr ⟨hroom, ih _ (by omega) (hi.next hlt)⟩
          · exact ⟨0, by rw [Function.iterate_zero_apply]; omega,
              fun k hk => absurd hk (Nat.not_lt_zero k)⟩
    exact hfrom _ 0 (le_refl _) .first

end Madt

/-- The loop ends with what it collects inside the declared length exactly when every entry
it gets to has a length byte that is not zero and, if it is collected, room for its
structure.  A declared length below the 44 bytes of the fixed part wraps, and the loop must
happen upon the few last numbers below `2 ^ 64`.  `extent` is what counts of a structure,
its size or the end of its last field. -/
theorem madt_scan_iff (m : ByteMem) (extent : UInt8 → Nat) :
    (44 ≤ Madt.length m → (Madt.ScanInside m extent ↔
      ∀ i, Madt.Reached m i → i < Madt.length m - 44 →
        Madt.lengthByte m i ≠ 0 ∧ Madt.Room m extent i)) ∧
    (Madt.length m < 44 → (Madt.ScanInside m extent ↔
      ∃ n, 2 ^ 64 - (44 - Madt.length m) ≤ (Madt.next m)^[n] 0 ∧
        ∀ k < n, Madt.Room m extent ((Madt.next m)^[k] 0))) := by
  have hempty : Madt.Found.empty.Inside m extent :=
    ⟨List.forall_mem_nil _, List.forall_mem_nil _, List.forall_mem_nil _, List.forall_mem_nil _⟩
  have hscan : Madt.ScanInside m extent ↔ Madt.Leaves m extent 0 :=
    Madt.scan_inside_iff.trans (and_iff_right hempty)
  constructor
  · intro hlen
    rw [hscan, Madt.leaves_iff hlen, Madt.entries_eq hlen]
  · intro hlen
    have hentries : Madt.entries m = 2 ^ 64 - (44 - Madt.length m) := by
      rw [Madt.entries]
      omega
    rw [hscan, Madt.Leaves, hentries]

/-- The memory that starts with these bytes. -/
def ofBytes (bytes : List UInt8) : ByteMem := fun p => bytes.getD p 0

/-- A fixed part that declares `n` bytes, fewer than 256. -/
def fixedPart (n : UInt8) : List UInt8 := List.replicate 4 0 ++ [n] ++ List.replicate 39 0

/-- A table of one LAPIC entry. -/
theorem madt_scan_iff_lapic :
    Madt.ScanInside (ofBytes (fixedPart 52 ++ [0, 8, 1, 1, 1, 0, 0, 0])) Madt.sizeofEntry := by
  have hreached : ∀ i, Madt.Reached (ofBytes (fixedPart 52 ++ [0, 8, 1, 1, 1, 0, 0, 0])) i →
      i = 0 ∨ i = 8 := by
    intro i hi
    induction hi with
    | first => exact .inl rfl
    | next _ hlt ih =>
        rcases ih with rfl | rfl
        · exact .inr (by decide)
        · exact absurd hlt (by decide)
  refine ((madt_scan_iff _ Madt.sizeofEntry).1 (by decide)).mpr fun i hi hlt => ?_
  rcases hreached i hi with rfl | rfl
  · exact ⟨by decide, fun _ => by decide⟩
  · exact absurd hlt (by decide)

/-- A table of one address override: the structure ends 4 bytes behind the declared length,
as it has padding that the table has not. -/
def overrideTable : ByteMem :=
  ofBytes (fixedPart 56 ++ [5, 12, 0, 0, 0, 0, 0xE0, 0xFE, 0, 0, 0, 0])

theorem scan_overrideTable :
    Madt.scan overrideTable 2 0 .empty = .ok ⟨[], [], [], [44]⟩ := by decide

/-- The override is not inside, and an entry of length zero is read for ever. -/
theorem override_not_inside :
    ¬Madt.ScanInside overrideTable Madt.sizeofEntry ∧
    ¬Madt.ScanInside (ofBytes (fixedPart 52 ++ List.replicate 8 0)) Madt.sizeofEntry := by
  constructor
  · rintro ⟨fuel, r, hret, hin⟩
    obtain rfl := Madt.scan_unique hret scan_overrideTable
    have hend := hin.addressOverride 44 List.mem_cons_self
    exact absurd hend (by decide)
  · rintro ⟨fuel, r, hret, _⟩
    rw [Madt.scan_of_zero (by decide) (by decide)] at hret
    cases hret

/-! ## Decoding -/

/-- An entry of the table, as it is laid out there; the length byte is that of all of it. -/
inductive MadtEntry
  | lapic (e : MadtLapic)
  | ioapic (e : MadtIoapic)
  | iso (e : MadtIso)
  | addrOverride (e : MadtAddrOverride)
  | other (type : UInt8) (body : List UInt8) (htype : ¬Madt.Collected type)
      (hlength : body.length + 2 < 256)

namespace MadtEntry

/-- The bytes of the entry: `addr` is at offset 4. -/
def encode : MadtEntry → List UInt8
  | lapic e => [0, 8, e.processorId, e.apicId] ++ leBytes 4 e.flags.toNat
  | ioapic e =>
      [1, 12, e.ioapicId, e.reserved] ++ (leBytes 4 e.ioapicAddr.toNat ++ leBytes 4 e.gsib.toNat)
  | iso e => [2, 10, e.bus, e.irq] ++ (leBytes 4 e.gsi.toNat ++ leBytes 2 e.flags.toNat)
  | addrOverride e => [5, 12] ++ (leBytes 2 e.reserved.toNat ++ leBytes 8 e.addr.toNat)
  | other type body _ _ => [type, UInt8.ofNat (body.length + 2)] ++ body

def encodeAll (es : List MadtEntry) : List UInt8 := es.flatMap encode

def lapic? : MadtEntry → Option MadtLapic
  | lapic e => some e
  | _ => none

def ioapic? : MadtEntry → Option MadtIoapic
  | ioapic e => some e
  | _ => none

def iso? : MadtEntry → Option MadtIso
  | iso e => some e
  | _ => none

def addrOverride? : MadtEntry → Option MadtAddrOverride
  | addrOverride e => some e
  | _ => none

/-- What the loop adds for an entry at `p`. -/
def foundAt (found : Madt.Found) (p : Nat) : MadtEntry → Madt.Found
  | lapic _ => { found with lapics := found.lapics ++ [p] }
  | ioapic _ => { found with ioapics := found.ioapics ++ [p] }
  | iso _ => { found with isos := found.isos ++ [p] }
  | addrOverride _ => { found with addressOverride := found.addressOverride ++ [p] }
  | other _ _ _ _ => found

/-- The same for entries from `p` on. -/
def foundAll (found : Madt.Found) (p : Nat) : List MadtEntry → Madt.Found
  | [] => found
  | e :: es => foundAll (e.foundAt found p) (p + e.encode.length) es

variable {m : ByteMem} {p : Nat} {found : Madt.Found}

/-- An entry starts with its type and its length. -/
theorem header_of_bytesAt (e : MadtEntry) (h : m.BytesAt p e.encode) :
    (m (p + 1)).toNat = e.encode.length ∧ ∀ found : Madt.Found,
      found.collect (m p) p = e.foundAt found p := by
  cases e with
  | lapic e =>
      obtain ⟨htype, hlength, _⟩ := h
      refine ⟨?_, fun found => by rw [htype]; rfl⟩
      rw [hlength, encode, List.length_append, length_leBytes]
      rfl
  | ioapic e =>
      obtain ⟨htype, hlength, _⟩ := h
      refine ⟨?_, fun found => by rw [htype]; rfl⟩
      rw [hlength, encode, List.length_append, List.length_append, length_leBytes, length_leBytes]
      rfl
  | iso e =>
      obtain ⟨htype, hlength, _⟩ := h
      refine ⟨?_, fun found => by rw [htype]; rfl⟩
      rw [hlength, encode, List.length_append, List.length_append, length_leBytes, length_leBytes]
      rfl
  | addrOverride e =>
      obtain ⟨htype, hlength, _⟩ := h
      refine ⟨?_, fun found => by rw [htype]; rfl⟩
      rw [hlength, encode, List.length_append, List.length_append, length_leBytes, length_leBytes]
      rfl
  | other type body hcol hbody =>
      obtain ⟨htype, hlength, _⟩ := h
      constructor
      · rw [hlength, UInt8.toNat_ofNat', Nat.mod_eq_of_lt hbody, encode, List.length_append,
          Nat.add_comm]
        rfl
      · intro found
        rw [htype, Madt.Found.collect, if_neg fun h => hcol (.inl h),
          if_neg fun h => hcol (.inr (.inl h)), if_neg fun h => hcol (.inr (.inr (.inl h))),
          if_neg fun h => hcol (.inr (.inr (.inr h)))]
        rfl

theorem u16_of_bytesAt {v : UInt16} (h : m.BytesAt p (leBytes 2 v.toNat)) : u16 m p = v := by
  have hlt : v.toNat < 256 ^ 2 := v.toNat_lt
  rw [u16, ByteMem.readLE_of_bytesAt h, Nat.mod_eq_of_lt hlt, UInt16.ofNat_toNat]

theorem u32_of_bytesAt {v : UInt32} (h : m.BytesAt p (leBytes 4 v.toNat)) : u32 m p = v := by
  have hlt : v.toNat < 256 ^ 4 := v.toNat_lt
  rw [u32, ByteMem.readLE_of_bytesAt h, Nat.mod_eq_of_lt hlt, UInt32.ofNat_toNat]

/-- The fields of an entry that is not an override read back. -/
theorem lapic_of_bytesAt {e : MadtLapic} (h : m.BytesAt p (lapic e).encode) :
    MadtLapic.read m p = e := by
  obtain ⟨_, _, hid, hapic, hflags⟩ := h
  rw [MadtLapic.read, hid, hapic, u32_of_bytesAt hflags]

theorem ioapic_of_bytesAt {e : MadtIoapic} (h : m.BytesAt p (ioapic e).encode) :
    MadtIoapic.read m p = e := by
  obtain ⟨_, _, hid, hreserved, hfields⟩ := h
  have hfields : m.BytesAt (p + 4) (leBytes 4 e.ioapicAddr.toNat ++ leBytes 4 e.gsib.toNat) :=
    hfields
  obtain ⟨haddr, hgsib⟩ := ByteMem.bytesAt_append.mp hfields
  rw [length_leBytes] at hgsib
  rw [MadtIoapic.read, hid, hreserved, u32_of_bytesAt haddr, u32_of_bytesAt hgsib]

theorem iso_of_bytesAt {e : MadtIso} (h : m.BytesAt p (iso e).encode) :
    MadtIso.read m p = e := by
  obtain ⟨_, _, hbus, hirq, hfields⟩ := h
  have hfields : m.BytesAt (p + 4) (leBytes 4 e.gsi.toNat ++ leBytes 2 e.flags.toNat) := hfields
  obtain ⟨hgsi, hflags⟩ := ByteMem.bytesAt_append.mp hfields
  rw [length_leBytes] at hflags
  rw [MadtIso.read, hbus, hirq, u32_of_bytesAt hgsi, u16_of_bytesAt hflags]

/-- Both halves of the address are the 4 bytes behind the entry. -/
def ReadsAddr (m : ByteMem) (p : Nat) (addr : UInt64) : Prop :=
  addr.toNat % 2 ^ 32 = addr.toNat / 2 ^ 32 ∧ m.readLE (p + 12) 4 = addr.toNat / 2 ^ 32

/-- `addr` is read 4 bytes too far: its high half first, and then what is behind the entry. -/
theorem addrOverride_of_bytesAt {e : MadtAddrOverride}
    (h : m.BytesAt p (addrOverride e).encode) :
    MadtAddrOverride.read m p = e ↔ ReadsAddr m p e.addr := by
  obtain ⟨_, _, hfields⟩ := h
  have hfields : m.BytesAt (p + 2) (leBytes 2 e.reserved.toNat ++ leBytes 8 e.addr.toNat) :=
    hfields
  obtain ⟨hreserved, haddr⟩ := ByteMem.bytesAt_append.mp hfields
  rw [length_leBytes, leBytes_add 4 4] at haddr
  obtain ⟨_, hhigh⟩ := ByteMem.bytesAt_append.mp haddr
  rw [length_leBytes] at hhigh
  have hlt : e.addr.toNat < 2 ^ 64 := e.addr.toNat_lt
  have hbehind := m.readLE_lt (p + 12) 4
  have hread : m.readLE (p + 8) 8 =
      e.addr.toNat / 2 ^ 32 + 2 ^ 32 * m.readLE (p + 12) 4 := by
    rw [m.readLE_add (p + 8) 4 4, ByteMem.readLE_of_bytesAt hhigh, Nat.mod_eq_of_lt (by omega)]
    rfl
  have hfull : m.readLE (p + 8) 8 < 2 ^ 64 := m.readLE_lt (p + 8) 8
  have haddr : u64 m (p + 8) = e.addr ↔ m.readLE (p + 8) 8 = e.addr.toNat := by
    rw [u64, ← UInt64.toNat_inj, UInt64.toNat_ofNat', Nat.mod_eq_of_lt hfull]
  have hread' : MadtAddrOverride.read m p = e ↔ u64 m (p + 8) = e.addr := by
    rw [MadtAddrOverride.read, u16_of_bytesAt hreserved]
    constructor
    · intro heq
      rw [← heq]
    · intro heq
      rw [heq]
  rw [hread', haddr, hread, ReadsAddr]
  constructor
  · intro heq
    omega
  · rintro ⟨hhalves, hbehind'⟩
    omega

/-- The memory holds a table of these entries. -/
structure Encodes (m : ByteMem) (es : List MadtEntry) : Prop where
  length : Madt.length m = 44 + (encodeAll es).length
  entries : m.BytesAt 44 (encodeAll es)

/-- What was collected is the list of the entries. -/
structure Decodes (m : ByteMem) (es : List MadtEntry) (found : Madt.Found) : Prop where
  lapics : found.lapics.map (MadtLapic.read m) = es.filterMap lapic?
  ioapics : found.ioapics.map (MadtIoapic.read m) = es.filterMap ioapic?
  isos : found.isos.map (MadtIso.read m) = es.filterMap iso?
  addressOverride :
    found.addressOverride.map (MadtAddrOverride.read m) = es.filterMap addrOverride?
  base : Madt.localApicBase m found =
    ((es.filterMap addrOverride?).head?.map (·.addr)).getD (Madt.lapicAddr m).toUInt64

/-- The address of each override from `p` on is read as it is. -/
def ReadsAddrs (m : ByteMem) (p : Nat) : List MadtEntry → Prop
  | [] => True
  | e :: es => (∀ a, e.addrOverride? = some a → ReadsAddr m p a.addr) ∧
      ReadsAddrs m (p + e.encode.length) es

theorem encodeAll_cons (e : MadtEntry) (es : List MadtEntry) :
    encodeAll (e :: es) = e.encode ++ encodeAll es := List.flatMap_cons

/-- The loop collects the entries where they are. -/
theorem scan_eq (found : Madt.Found) (i : Nat) (es : List MadtEntry)
    (hes : m.BytesAt (44 + i) (encodeAll es))
    (hend : i + (encodeAll es).length = Madt.entries m) (hlt : Madt.entries m < 2 ^ 32) :
    Madt.scan m (es.length + 1) i found = .ok (foundAll found (44 + i) es) := by
  induction es generalizing i found with
  | nil =>
      have hi : ¬i < Madt.entries m := by
        rw [← hend]
        exact Nat.lt_irrefl i
      exact if_neg hi
  | cons e es ih =>
      rw [encodeAll_cons, List.length_append] at hend
      rw [encodeAll_cons, ByteMem.bytesAt_append] at hes
      obtain ⟨hlength, hcollect⟩ := header_of_bytesAt e hes.1
      have hpos : 0 < e.encode.length := by
        rw [← hlength, Nat.pos_iff_ne_zero, hlength]
        cases e <;> simp [encode]
      have hentry : Madt.entry i = 44 + i := Nat.mod_eq_of_lt (by omega)
      have hentry' : Madt.entry (i + 1) = 44 + i + 1 := Nat.mod_eq_of_lt (by omega)
      have hnext : Madt.next m i = i + e.encode.length := by
        rw [Madt.next, Madt.lengthByte, hentry', hlength]
        exact Nat.mod_eq_of_lt (by omega)
      have hi : i < Madt.entries m := by omega
      rw [List.length_cons, Madt.scan, if_pos hi, Madt.type, hentry, hcollect, hnext, foundAll]
      rw [Nat.add_assoc] at hes ⊢
      exact ih _ _ hes.2 (by omega)

/-- What is read where the overrides are. -/
def overridesRead (m : ByteMem) (p : Nat) : List MadtEntry → List MadtAddrOverride
  | [] => []
  | e :: es => (e.addrOverride?.map fun _ => MadtAddrOverride.read m p).toList ++
      overridesRead m (p + e.encode.length) es

/-- The structures at the places of the entries. -/
theorem foundAll_read (found : Madt.Found) (es : List MadtEntry)
    (hes : m.BytesAt p (encodeAll es)) :
    (foundAll found p es).lapics.map (MadtLapic.read m) =
        found.lapics.map (MadtLapic.read m) ++ es.filterMap lapic? ∧
      (foundAll found p es).ioapics.map (MadtIoapic.read m) =
        found.ioapics.map (MadtIoapic.read m) ++ es.filterMap ioapic? ∧
      (foundAll found p es).isos.map (MadtIso.read m) =
        found.isos.map (MadtIso.read m) ++ es.filterMap iso? ∧
      (foundAll found p es).addressOverride.map (MadtAddrOverride.read m) =
        found.addressOverride.map (MadtAddrOverride.read m) ++ overridesRead m p es := by
  induction es generalizing found p with
  | nil => simp [foundAll, overridesRead]
  | cons e es ih =>
      rw [encodeAll_cons, ByteMem.bytesAt_append] at hes
      obtain ⟨hl, hio, hiso, hao⟩ := ih (e.foundAt found p) hes.2
      rw [foundAll, overridesRead, hl, hio, hiso, hao]
      cases e with
      | lapic e =>
          rw [foundAt, List.map_append, List.map_singleton, lapic_of_bytesAt hes.1,
            List.append_assoc]
          exact ⟨rfl, rfl, rfl, rfl⟩
      | ioapic e =>
          rw [foundAt, List.map_append, List.map_singleton, ioapic_of_bytesAt hes.1,
            List.append_assoc]
          exact ⟨rfl, rfl, rfl, rfl⟩
      | iso e =>
          rw [foundAt, List.map_append, List.map_singleton, iso_of_bytesAt hes.1,
            List.append_assoc]
          exact ⟨rfl, rfl, rfl, rfl⟩
      | addrOverride e =>
          rw [foundAt, List.map_append, List.map_singleton, List.append_assoc]
          exact ⟨rfl, rfl, rfl, rfl⟩
      | other type body htype hlength => exact ⟨rfl, rfl, rfl, rfl⟩

theorem overridesRead_iff (es : List MadtEntry) (hes : m.BytesAt p (encodeAll es)) :
    overridesRead m p es = es.filterMap addrOverride? ↔ ReadsAddrs m p es := by
  induction es generalizing p with
  | nil => exact iff_of_true rfl trivial
  | cons e es ih =>
      rw [encodeAll_cons, ByteMem.bytesAt_append] at hes
      rw [overridesRead, ReadsAddrs, ← ih hes.2]
      cases hover : e.addrOverride? with
      | none =>
          rw [List.filterMap_cons_none hover]
          simp
      | some a =>
          obtain rfl : e = addrOverride a := by
            cases e <;> cases hover
            rfl
          rw [List.filterMap_cons_some hover]
          simp only [Option.map_some, Option.toList_some, List.singleton_append,
            List.cons.injEq, Option.some.injEq, forall_eq', addrOverride_of_bytesAt hes.1]

/-- The base is that of the override read first. -/
theorem base_of_overrides {es : List MadtEntry}
    (hao : found.addressOverride.map (MadtAddrOverride.read m) = es.filterMap addrOverride?) :
    Madt.localApicBase m found =
      ((es.filterMap addrOverride?).head?.map (·.addr)).getD (Madt.lapicAddr m).toUInt64 := by
  rw [← hao, Madt.localApicBase]
  cases found.addressOverride <;> rfl

end MadtEntry

/-- The loop collects the entries of a table as they were laid out, and chooses the base that
the first override has, exactly when for each override the two halves of its address and the
4 bytes behind the entry are the same. -/
theorem madt_decode_iff {m : ByteMem} {es : List MadtEntry} (h : MadtEntry.Encodes m es) :
    (∃ fuel found, Madt.scan m fuel 0 .empty = .ok found ∧ MadtEntry.Decodes m es found) ↔
      MadtEntry.ReadsAddrs m 44 es := by
  have hlt : Madt.length m < 2 ^ 32 := m.readLE_lt 4 4
  have hlen : 44 ≤ Madt.length m := by
    rw [h.length]
    exact Nat.le_add_right 44 _
  have hentries := Madt.entries_eq hlen
  have hscan := MadtEntry.scan_eq .empty 0 es h.entries
    (by rw [hentries, h.length]; omega) (by omega)
  obtain ⟨hl, hio, hiso, hao⟩ := MadtEntry.foundAll_read .empty es h.entries
  rw [← MadtEntry.overridesRead_iff es h.entries]
  constructor
  · rintro ⟨fuel, found, hret, hdec⟩
    obtain rfl := Madt.scan_unique hret hscan
    exact hao.symm.trans hdec.addressOverride
  · intro hread
    exact ⟨es.length + 1, _, hscan, hl, hio, hiso, hao.trans hread,
      MadtEntry.base_of_overrides (hao.trans hread)⟩

/-- A table of a LAPIC and an IO APIC. -/
theorem madt_decode_iff_two :
    ∃ fuel found, Madt.scan (ofBytes (fixedPart 64 ++ [0, 8, 1, 2, 1, 0, 0, 0] ++
        [1, 12, 3, 0, 0, 0, 0xC0, 0xFE, 0, 0, 0, 0])) fuel 0 .empty = .ok found ∧
      found.lapics.length = 1 ∧ found.ioapics.length = 1 := by
  have h : MadtEntry.Encodes (ofBytes (fixedPart 64 ++ [0, 8, 1, 2, 1, 0, 0, 0] ++
      [1, 12, 3, 0, 0, 0, 0xC0, 0xFE, 0, 0, 0, 0]))
      [.lapic ⟨1, 2, 1⟩, .ioapic ⟨3, 0, 0xFEC00000, 0⟩] := ⟨by decide, by decide⟩
  have hreads : MadtEntry.ReadsAddrs (ofBytes (fixedPart 64 ++ [0, 8, 1, 2, 1, 0, 0, 0] ++
      [1, 12, 3, 0, 0, 0, 0xC0, 0xFE, 0, 0, 0, 0])) 44
      [.lapic ⟨1, 2, 1⟩, .ioapic ⟨3, 0, 0xFEC00000, 0⟩] := by
    simp [MadtEntry.ReadsAddrs, MadtEntry.addrOverride?]
  obtain ⟨fuel, found, hret, hdec⟩ := (madt_decode_iff h).mpr hreads
  refine ⟨fuel, found, hret, ?_, ?_⟩
  · rw [← List.length_map (MadtLapic.read _), hdec.lapics]
    rfl
  · rw [← List.length_map (MadtIoapic.read _), hdec.ioapics]
    rfl

/-- The override puts the local APIC at `0xFEE00000`, and 0 is read. -/
theorem override_misread :
    MadtEntry.Encodes overrideTable [.addrOverride ⟨0, 0xFEE00000⟩] ∧
    ¬∃ fuel found, Madt.scan overrideTable fuel 0 .empty = .ok found ∧
      MadtEntry.Decodes overrideTable [.addrOverride ⟨0, 0xFEE00000⟩] found := by
  refine ⟨⟨by decide, by decide⟩, ?_⟩
  rintro ⟨fuel, found, hret, hdec⟩
  obtain rfl := Madt.scan_unique hret scan_overrideTable
  exact absurd hdec.base (by decide)

end Toystar.X86
