import Toystar.X86.Madt

/-!
# The IO APICs

`Apic::ioapic` and the loop of `Apic::init` that sets up the redirection entries.  An IO
APIC is the registers behind its index register; entry `k` is the registers `0x10 + 2 * k`
and the next one, and its mask is bit 16.

`max_gsi` is the index of the last entry, and the loop takes it for a number of entries that
begin with GSI 0.  So the last entry keeps the mask it had, and an IO APIC that does not
begin with GSI 0 keeps all that are not named by chance (`keyboard_only_iff`).
-/

namespace Toystar.X86

/-- `Apic::ioapic`. -/
structure IoApic where
  gsib : UInt32
  regs : UInt32 → UInt32

namespace IoApic

/-! ## The functions -/

/-- `read`. -/
def read (a : IoApic) (reg : UInt32) : UInt32 := a.regs reg

/-- `write`. -/
def write (a : IoApic) (reg value : UInt32) : IoApic :=
  { a with regs := Function.update a.regs reg value }

/-- `((gsi - gsib) * 2) + 0x10`. -/
def reg (gsib gsi : UInt32) : UInt32 := (gsi - gsib) * 2 + 0x10

/-- The value that `set_redirection` writes. -/
def redirection (vector : UInt8) (flags : UInt32) : UInt64 :=
  let redirection := vector.toUInt64
  let redirection := redirection ||| (if flags &&& 2 ≠ 0 then (1 : UInt64) <<< 13 else redirection)
  redirection ||| (if flags &&& 8 ≠ 0 then (1 : UInt64) <<< 15 else redirection)

/-- `set_redirection`. -/
def setRedirection (a : IoApic) (vector : UInt8) (gsi flags : UInt32) : IoApic :=
  let reg := reg a.gsib gsi
  let redirection := redirection vector flags
  (a.write reg redirection.toUInt32).write (reg + 1) (redirection >>> 32).toUInt32

/-- `max_gsi`. -/
def maxGsi (a : IoApic) : UInt8 := ((a.read 1 >>> 16) &&& 0xFF).toUInt8

/-- `mask_gsi`. -/
def maskGsi (a : IoApic) (gsi : UInt32) : IoApic :=
  let reg := reg a.gsib gsi
  a.write reg (a.read reg ||| (1 : UInt32) <<< 16)

/-- `unmask_gsi`. -/
def unmaskGsi (a : IoApic) (gsi : UInt32) : IoApic :=
  let reg := reg a.gsib gsi
  a.write reg (a.read reg &&& ~~~((1 : UInt32) <<< 16))

/-- `set_redirection(i + 0x20, i, 0);` -/
def setLegacyEntry (a : IoApic) (i : Nat) : IoApic :=
  a.setRedirection (UInt8.ofNat (i + 0x20)) (UInt32.ofNat i) 0

/-- The body of the loop over the overrides. -/
def setIso (max baseGsi : Nat) (a : IoApic) (iso : MadtIso) : IoApic :=
  if iso.gsi.toNat < baseGsi ∨ iso.gsi.toNat ≥ baseGsi + max then a
  else a.setRedirection (iso.irq + 0x20) iso.gsi iso.flags.toUInt32

/-- `mask_gsi(i);` -/
def maskEntry (a : IoApic) (i : Nat) : IoApic := a.maskGsi (UInt32.ofNat i)

/-- What `Apic::init` does to one IO APIC. -/
def init (a : IoApic) (isos : List MadtIso) : IoApic :=
  let max := a.maxGsi.toNat
  let baseGsi := a.gsib.toNat
  let a := if baseGsi = 0 then (List.range 16).foldl setLegacyEntry a else a
  let a := isos.foldl (setIso max baseGsi) a
  let a := (List.range max).foldl maskEntry a
  if baseGsi = 0 then a.unmaskGsi 1 else a

/-! ## Masks -/

/-- The first register of entry `k`. -/
def entryReg (k : Nat) : UInt32 := UInt32.ofNat (2 * k + 0x10)

/-- Entry `k` has its mask bit set. -/
def Masked (a : IoApic) (k : Nat) : Prop := (a.regs (entryReg k)).toNat.testBit 16 = true

variable {a : IoApic} {k : Nat} {gsi : UInt32}

theorem testBit_redirection (vector : UInt8) (flags : UInt32) :
    (redirection vector flags).toUInt32.toNat.testBit 16 = false := by
  have hvector : vector.toNat.testBit 16 = false :=
    Nat.testBit_lt_two_pow (lt_trans vector.toNat_lt (by decide))
  have hpolarity : Nat.testBit 8192 16 = false := by decide
  have htrigger : Nat.testBit 32768 16 = false := by decide
  rw [redirection]
  split <;> split <;> simp [Nat.testBit_or, hvector, hpolarity, htrigger]

/-- An entry has the first of two registers. -/
theorem reg_add_one_ne (gsib gsi : UInt32) (k : Nat) : reg gsib gsi + 1 ≠ entryReg k := by
  intro heq
  have h := congrArg (fun r : UInt32 => r.toNat % 2) heq
  simp [reg, entryReg, UInt32.toNat_add, UInt32.toNat_mul] at h
  omega

theorem masked_write_self (a : IoApic) (value : UInt32) :
    (a.write (entryReg k) value).Masked k ↔ value.toNat.testBit 16 = true := by
  rw [Masked, write]
  dsimp only
  rw [Function.update_self]

theorem masked_write_of_ne {r : UInt32} (hne : r ≠ entryReg k) (value : UInt32) :
    (a.write r value).Masked k ↔ a.Masked k := by
  rw [Masked, write]
  dsimp only
  rw [Function.update_of_ne (Ne.symm hne), Masked]

/-- `set_redirection` leaves the entry unmasked. -/
theorem masked_setRedirection (a : IoApic) (vector : UInt8) (gsi flags : UInt32) (k : Nat) :
    (a.setRedirection vector gsi flags).Masked k ↔
      reg a.gsib gsi ≠ entryReg k ∧ a.Masked k := by
  rw [setRedirection, masked_write_of_ne (reg_add_one_ne _ _ _)]
  by_cases hreg : reg a.gsib gsi = entryReg k
  · rw [hreg, masked_write_self, testBit_redirection]
    simp
  · rw [masked_write_of_ne hreg]
    exact (and_iff_right hreg).symm

theorem masked_maskGsi (a : IoApic) (gsi : UInt32) (k : Nat) :
    (a.maskGsi gsi).Masked k ↔ reg a.gsib gsi = entryReg k ∨ a.Masked k := by
  rw [maskGsi]
  by_cases hreg : reg a.gsib gsi = entryReg k
  · have hbit : ((1 : UInt32) <<< 16).toNat.testBit 16 = true := by decide
    rw [hreg, masked_write_self, UInt32.toNat_or, Nat.testBit_or, hbit]
    simp
  · rw [masked_write_of_ne hreg]
    exact (or_iff_right hreg).symm

theorem masked_unmaskGsi (a : IoApic) (gsi : UInt32) (k : Nat) :
    (a.unmaskGsi gsi).Masked k ↔ reg a.gsib gsi ≠ entryReg k ∧ a.Masked k := by
  rw [unmaskGsi]
  by_cases hreg : reg a.gsib gsi = entryReg k
  · have hbit : (~~~((1 : UInt32) <<< 16)).toNat.testBit 16 = false := by decide
    rw [hreg, masked_write_self, UInt32.toNat_and, Nat.testBit_and, hbit]
    simp
  · rw [masked_write_of_ne hreg]
    exact (and_iff_right hreg).symm

/-- A loop that unmasks the entries it hits. -/
theorem masked_foldl_unmask {β : Type} (f : IoApic → β → IoApic) {gsib : UInt32}
    (hits : β → Prop) (hgsib : ∀ a x, (f a x).gsib = a.gsib)
    (hf : ∀ a x, a.gsib = gsib → ((f a x).Masked k ↔ ¬hits x ∧ a.Masked k)) (xs : List β)
    (a : IoApic) (ha : a.gsib = gsib) :
    (xs.foldl f a).gsib = gsib ∧
      ((xs.foldl f a).Masked k ↔ (∀ x ∈ xs, ¬hits x) ∧ a.Masked k) := by
  induction xs generalizing a with
  | nil => exact ⟨ha, by simp⟩
  | cons x xs ih =>
      obtain ⟨hend, hmasked⟩ := ih (f a x) ((hgsib a x).trans ha)
      refine ⟨hend, ?_⟩
      rw [List.foldl_cons, hmasked, hf a x ha, List.forall_mem_cons, and_left_comm, and_assoc]

/-- A loop that masks the entries it hits. -/
theorem masked_foldl_mask {β : Type} (f : IoApic → β → IoApic) {gsib : UInt32}
    (hits : β → Prop) (hgsib : ∀ a x, (f a x).gsib = a.gsib)
    (hf : ∀ a x, a.gsib = gsib → ((f a x).Masked k ↔ hits x ∨ a.Masked k)) (xs : List β)
    (a : IoApic) (ha : a.gsib = gsib) :
    (xs.foldl f a).gsib = gsib ∧
      ((xs.foldl f a).Masked k ↔ (∃ x ∈ xs, hits x) ∨ a.Masked k) := by
  induction xs generalizing a with
  | nil => exact ⟨ha, by simp⟩
  | cons x xs ih =>
      obtain ⟨hend, hmasked⟩ := ih (f a x) ((hgsib a x).trans ha)
      refine ⟨hend, ?_⟩
      rw [List.foldl_cons, hmasked, hf a x ha, List.exists_mem_cons_iff, or_left_comm, or_assoc]

/-- The registers wrap, so a GSI names an entry modulo `2 ^ 31`. -/
theorem reg_eq_iff (gsib gsi : UInt32) (hk : k < 256) :
    reg gsib gsi = entryReg k ↔ (2 ^ 32 - gsib.toNat + gsi.toNat) % 2 ^ 31 = k := by
  have hgsib := gsib.toNat_lt
  have hgsi := gsi.toNat_lt
  rw [← UInt32.toNat_inj, reg, entryReg, UInt32.toNat_add, UInt32.toNat_mul, UInt32.toNat_sub,
    UInt32.toNat_ofNat']
  show ((2 ^ 32 - gsib.toNat + gsi.toNat) % 2 ^ 32 * 2 % 2 ^ 32 + 16) % 2 ^ 32 =
    (2 * k + 16) % 2 ^ 32 ↔ _
  omega

/-! ## The loop -/

variable {isos : List MadtIso} {max : Nat}

theorem toNat_ofNat_of_lt {i : Nat} (hi : i < 256) : (UInt32.ofNat i).toNat = i := by
  rw [UInt32.toNat_ofNat']
  exact Nat.mod_eq_of_lt (by omega)

/-- The legacy interrupts are the first 16 entries. -/
theorem masked_legacy (hk : k < 256) (hgsib : a.gsib = 0) :
    ((List.range 16).foldl setLegacyEntry a).gsib = 0 ∧
      (((List.range 16).foldl setLegacyEntry a).Masked k ↔ 16 ≤ k ∧ a.Masked k) := by
  obtain ⟨hend, hmasked⟩ := masked_foldl_unmask setLegacyEntry
    (fun i => reg 0 (UInt32.ofNat i) = entryReg k) (fun _ _ => rfl)
    (fun a i ha => by rw [setLegacyEntry, masked_setRedirection, ha]) (List.range 16) a hgsib
  refine ⟨hend, hmasked.trans (and_congr_left fun _ => ?_)⟩
  have hhits : ∀ i ∈ List.range 16, reg 0 (UInt32.ofNat i) = entryReg k ↔ i = k := by
    intro i hi
    rw [List.mem_range] at hi
    have hzero : (0 : UInt32).toNat = 0 := rfl
    rw [reg_eq_iff _ _ hk, toNat_ofNat_of_lt (by omega), hzero]
    omega
  constructor
  · intro hall
    by_contra hlt
    have hmem : k ∈ List.range 16 := List.mem_range.mpr (by omega)
    exact hall k hmem ((hhits k hmem).mpr rfl)
  · intro hle i hi hhit
    have hik := (hhits i hi).mp hhit
    rw [List.mem_range] at hi
    omega

/-- An override names the entry of its GSI, if that is not the last one. -/
theorem masked_setIso (hk : k < 256) (hmax : max < 256) {gsib : UInt32} (ha : a.gsib = gsib)
    (iso : MadtIso) :
    (setIso max gsib.toNat a iso).Masked k ↔
      ¬(k < max ∧ iso.gsi.toNat = gsib.toNat + k) ∧ a.Masked k := by
  have hlt := gsib.toNat_lt
  have hgsi := iso.gsi.toNat_lt
  rw [setIso]
  split
  · rename_i hout
    have hnot : ¬(k < max ∧ iso.gsi.toNat = gsib.toNat + k) := by omega
    exact (and_iff_right hnot).symm
  · rename_i hin
    rw [masked_setRedirection, ha, Ne, reg_eq_iff _ _ hk]
    refine and_congr_left fun _ => not_congr ?_
    omega

theorem masked_isos (isos : List MadtIso) (hk : k < 256) (hmax : max < 256) {gsib : UInt32}
    (ha : a.gsib = gsib) :
    (isos.foldl (setIso max gsib.toNat) a).gsib = gsib ∧
      ((isos.foldl (setIso max gsib.toNat) a).Masked k ↔
        (k < max → ∀ iso ∈ isos, iso.gsi.toNat ≠ gsib.toNat + k) ∧ a.Masked k) := by
  have hgsib : ∀ a iso, (setIso max gsib.toNat a iso).gsib = a.gsib := by
    intro a iso
    rw [setIso]
    split <;> rfl
  obtain ⟨hend, hmasked⟩ := masked_foldl_unmask (setIso max gsib.toNat)
    (fun iso => k < max ∧ iso.gsi.toNat = gsib.toNat + k) hgsib
    (fun a iso ha => masked_setIso hk hmax ha iso) isos a ha
  refine ⟨hend, hmasked.trans (and_congr_left fun _ => ?_)⟩
  constructor
  · intro hall hkmax iso hiso heq
    exact hall iso hiso ⟨hkmax, heq⟩
  · intro hall iso hiso hhit
    exact hall hhit.1 iso hiso hhit.2

/-- GSI 0 and the next ones are masked, wherever the window begins. -/
theorem masked_all (hk : k < 256) (hmax : max < 256) {gsib : UInt32} (ha : a.gsib = gsib) :
    ((List.range max).foldl maskEntry a).gsib = gsib ∧
      (((List.range max).foldl maskEntry a).Masked k ↔
        (∃ i < max, i % 2 ^ 31 = (gsib.toNat + k) % 2 ^ 31) ∨ a.Masked k) := by
  have hlt := gsib.toNat_lt
  obtain ⟨hend, hmasked⟩ := masked_foldl_mask maskEntry
    (fun i => reg gsib (UInt32.ofNat i) = entryReg k) (fun _ _ => rfl)
    (fun a i ha => by rw [maskEntry, masked_maskGsi, ha]) (List.range max) a ha
  refine ⟨hend, hmasked.trans (or_congr_left ?_)⟩
  constructor
  · rintro ⟨i, hi, hhit⟩
    rw [List.mem_range] at hi
    rw [reg_eq_iff _ _ hk, toNat_ofNat_of_lt (by omega)] at hhit
    exact ⟨i, hi, by omega⟩
  · rintro ⟨i, hi, hsame⟩
    refine ⟨i, List.mem_range.mpr hi, ?_⟩
    rw [reg_eq_iff _ _ hk, toNat_ofNat_of_lt (by omega)]
    omega

theorem maxGsi_lt (a : IoApic) : a.maxGsi.toNat < 256 := a.maxGsi.toNat_lt

/-- On the IO APIC of GSI 0 the entries before the last are masked, but for the keyboard. -/
theorem masked_init_of_zero (hk : k < 256) (hgsib : a.gsib = 0) :
    (a.init isos).Masked k ↔
      k ≠ 1 ∧ (k < a.maxGsi.toNat ∨ (16 ≤ k ∧ a.Masked k)) := by
  have hzero : (0 : UInt32).toNat = 0 := rfl
  have hone : (1 : UInt32).toNat = 1 := rfl
  have hmax := a.maxGsi_lt
  obtain ⟨hgsib₁, hlegacy⟩ := masked_legacy hk hgsib
  obtain ⟨hgsib₂, hisos⟩ := masked_isos isos hk hmax hgsib₁
  obtain ⟨hgsib₃, hall⟩ := masked_all hk hmax hgsib₂
  rw [init, hgsib, hzero, if_pos rfl, if_pos rfl]
  rw [hzero] at hgsib₂ hisos hgsib₃ hall
  rw [masked_unmaskGsi, hgsib₃, hall, hisos, hlegacy, Ne, reg_eq_iff _ _ hk, hzero, hone]
  have hkey : (2 ^ 32 - 0 + 1) % 2 ^ 31 = k ↔ k = 1 := by omega
  have hfirst : (∃ i < a.maxGsi.toNat, i % 2 ^ 31 = (0 + k) % 2 ^ 31) ↔
      k < a.maxGsi.toNat := by
    constructor
    · rintro ⟨i, hi, hsame⟩
      omega
    · intro hlt
      exact ⟨k, hlt, by rw [Nat.zero_add]⟩
  rw [hkey, hfirst]
  refine and_congr_right fun _ => ⟨?_, ?_⟩
  · rintro (hlt | ⟨_, hmasked⟩)
    · exact .inl hlt
    · exact .inr hmasked
  · rintro (hlt | hmasked)
    · exact .inl hlt
    · by_cases hlt : k < a.maxGsi.toNat
      · exact .inl hlt
      · exact .inr ⟨fun hlt' => absurd hlt' hlt, hmasked⟩

theorem masked_init_of_ne (hk : k < 256) (hgsib : a.gsib ≠ 0) :
    (a.init isos).Masked k ↔
      (∃ i < a.maxGsi.toNat, i % 2 ^ 31 = (a.gsib.toNat + k) % 2 ^ 31) ∨
        ((k < a.maxGsi.toNat → ∀ iso ∈ isos, iso.gsi.toNat ≠ a.gsib.toNat + k) ∧
          a.Masked k) := by
  have hne : a.gsib.toNat ≠ 0 := fun hzero => hgsib (UInt32.toNat_inj.mp hzero)
  have hmax := a.maxGsi_lt
  obtain ⟨hgsib₁, hisos⟩ := masked_isos isos hk hmax (rfl : a.gsib = a.gsib)
  obtain ⟨_, hall⟩ := masked_all hk hmax hgsib₁
  rw [init, if_neg hne, if_neg hne, hall, hisos]

/-- The number of redirection entries, of which register 1 reports one less. -/
def entries (a : IoApic) : Nat := a.maxGsi.toNat + 1

/-- After the loop the mask of each entry is set, but for the keyboard. -/
def KeyboardOnly (a : IoApic) (isos : List MadtIso) : Prop :=
  ∀ k < a.entries, ((a.init isos).Masked k ↔ ¬(a.gsib = 0 ∧ k = 1))

/-- The IO APIC of GSI 0 has two entries, or more than 16 with the last one masked before.
On another one the loop over the first `entries - 1` GSIs gets to the GSI of each entry,
modulo `2 ^ 31`, or the entry was masked before, and is the last or has no override. -/
def Reaches (a : IoApic) (isos : List MadtIso) : Prop :=
  if a.gsib = 0 then a.entries = 2 ∨ (16 < a.entries ∧ a.Masked (a.entries - 1))
  else ∀ k < a.entries,
    (∃ i < a.entries - 1, i % 2 ^ 31 = (a.gsib.toNat + k) % 2 ^ 31) ∨
      (a.Masked k ∧
        (k = a.entries - 1 ∨ ∀ iso ∈ isos, iso.gsi.toNat ≠ a.gsib.toNat + k))

theorem keyboardOnly_iff (a : IoApic) (isos : List MadtIso) :
    a.KeyboardOnly isos ↔ a.Reaches isos := by
  have hmax := a.maxGsi_lt
  have hlast : a.entries - 1 = a.maxGsi.toNat := rfl
  rw [Reaches]
  split
  · rename_i hgsib
    constructor
    · intro hall
      have hmasked := hall a.maxGsi.toNat (Nat.lt_succ_self _)
      rw [masked_init_of_zero hmax hgsib] at hmasked
      by_cases hone : a.maxGsi.toNat = 1
      · exact .inl (congrArg (· + 1) hone)
      · rcases (hmasked.mpr fun h => hone h.2).2 with hlt | ⟨hle, hbefore⟩
        · exact absurd hlt (Nat.lt_irrefl _)
        · exact .inr ⟨Nat.lt_succ_of_le hle, hbefore⟩
    · intro hreaches k hk
      have hk' : k ≤ a.maxGsi.toNat := Nat.le_of_lt_succ hk
      rw [masked_init_of_zero (by omega) hgsib]
      constructor
      · rintro ⟨hne, _⟩ ⟨_, hone⟩
        exact hne hone
      · intro hnot
        have hne : k ≠ 1 := fun hone => hnot ⟨hgsib, hone⟩
        refine ⟨hne, ?_⟩
        rcases Nat.lt_or_ge k a.maxGsi.toNat with hlt | hge
        · exact .inl hlt
        · obtain rfl : k = a.maxGsi.toNat := le_antisymm hk' hge
          rcases hreaches with htwo | ⟨hle, hbefore⟩
          · exact absurd (Nat.succ_injective htwo) hne
          · exact .inr ⟨Nat.le_of_lt_succ hle, hbefore⟩
  · rename_i hgsib
    refine forall_congr' fun k => forall_congr' fun hk => ?_
    have hk' : k ≤ a.maxGsi.toNat := Nat.le_of_lt_succ hk
    have hother : ¬(a.gsib = 0 ∧ k = 1) := fun h => hgsib h.1
    have hnamed : (k < a.maxGsi.toNat → ∀ iso ∈ isos, iso.gsi.toNat ≠ a.gsib.toNat + k) ↔
        (k = a.maxGsi.toNat ∨ ∀ iso ∈ isos, iso.gsi.toNat ≠ a.gsib.toNat + k) := by
      constructor
      · intro h
        rcases Nat.lt_or_ge k a.maxGsi.toNat with hlt | hge
        · exact .inr (h hlt)
        · exact .inl (le_antisymm hk' hge)
      · rintro (heq | h) hlt
        · omega
        · exact h
    rw [masked_init_of_ne (by omega) hgsib, iff_true_right hother, hlast, hnamed,
      and_comm (a := a.Masked k)]

end IoApic

/-- For any IO APICs, with any contents, and any overrides, the loop leaves only the keyboard
unmasked exactly when it reaches the entries of each. -/
theorem keyboard_only_iff (ioapics : List IoApic) (isos : List MadtIso) :
    (∀ a ∈ ioapics, a.KeyboardOnly isos) ↔ ∀ a ∈ ioapics, a.Reaches isos :=
  forall_congr' fun a => forall_congr' fun _ => a.keyboardOnly_iff isos

/-- A second IO APIC with 24 entries, all masked: an override unmasks one for good. -/
theorem override_left_unmasked :
    ¬(⟨24, fun r => if r = 1 then 0x170000 else 0x10000⟩ : IoApic).KeyboardOnly
      [⟨0, 9, 30, 0⟩] := by
  intro hall
  have hmasked := (hall 6 (by decide)).mpr (by decide)
  rw [IoApic.Masked] at hmasked
  exact absurd hmasked (by decide)

end Toystar.X86
