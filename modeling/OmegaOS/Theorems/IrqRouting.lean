import Mathlib.Data.List.Basic
import OmegaOS.Madt

/-!
# Routing an interrupt to its I/O APIC

`getIoApicByInterrupt` also takes an I/O APIC whose range ends right before the interrupt, and `ioapic_map_irq` writes the entry with the
interrupt's global number. Both are right for an I/O APIC that begins at 0 and that no other one is taken for.
-/

namespace OmegaOS

open List

variable {m : Bytes} {info : MadtInfo} {bspID : BitVec 32} {irq vector : BitVec 8} {logical : Bool} {ioapic owner : Nat}
  {before after : List Nat}

/-- The interrupt is in the range of the I/O APIC. -/
def Owns (m : Bytes) (ioapic irq : Nat) : Prop :=
  ioapicGsib m ioapic ≤ irq ∧ irq < ioapicGsib m ioapic + ioapicMaxInterrupts m ioapic

instance (m : Bytes) (ioapic irq : Nat) : Decidable (Owns m ioapic irq) := inferInstanceAs (Decidable (_ ∧ _))

/-- Each I/O APIC has its own registers and its own range. -/
structure IoApicsApart (m : Bytes) (ioapics : List Nat) : Prop where
  addresses : ioapics.Pairwise fun a b => ioapicAddress m a ≠ ioapicAddress m b
  ranges : ioapics.Pairwise fun a b => ∀ irq, ¬ (Owns m a irq ∧ Owns m b irq)

/-- The low register of a redirection entry. The high one is next to it. -/
def entryRegister (entry : Nat) : Nat := 0x10 + 2 * entry

/-- From `r` to `r'` a redirection entry has been programmed with the vector and unmasked, and no other register has been written. -/
structure Programmed (r r' : IoApicRegs) (base entry : Nat) (vector : BitVec 8) : Prop where
  vector : r' base (entryRegister entry) % 2 ^ 8 = vector.toNat
  unmasked : (r' base (entryRegister entry)).testBit 16 = false
  others : ∀ b offset, ¬ (b = base ∧ (offset = entryRegister entry ∨ offset = entryRegister entry + 1)) → r' b offset = r b offset

/-- Whatever the registers hold, `ioapic_map_irq` programs the interrupt's entry of its owner. -/
def Routes (m : Bytes) (info : MadtInfo) (bspID : BitVec 32) (irq vector : BitVec 8) (logical : Bool) (owner : Nat) : Prop :=
  ∀ r, ∃ r', ioapicMapIrq m info bspID r irq vector logical = .ok r' ∧
    Programmed r r' (ioapicAddress m owner) (irq.toNat - ioapicGsib m owner) vector

/-! ## The entry -/

theorem raw_vector (entry : IoApicRedirectionEntry) : (entry.raw.setWidth 32).toNat % 2 ^ 8 = entry.vector.toNat := by
  have hlow : entry.raw.setWidth 8 = entry.vector := BitVec.setWidth_append_eq_right
  rw [← hlow, BitVec.toNat_setWidth, BitVec.toNat_setWidth]
  omega

theorem raw_mask (entry : IoApicRedirectionEntry) : (entry.raw.setWidth 32).toNat.testBit 16 = entry.mask.getLsbD 0 := by
  rw [BitVec.testBit_toNat, BitVec.getLsbD_setWidth]
  have hfields : entry.raw.getLsbD 16 = _ := BitVec.getLsbD_append
  simp only [BitVec.getLsbD_append] at hfields
  simpa using hfields

theorem redirectionHigh_eq (index : Nat) : redirectionHigh index = redirection index + 1 := by
  rw [redirectionHigh, redirection]
  omega

theorem writeRedirectionEntry_low (r : IoApicRegs) (base index : Nat) (raw : BitVec 64) :
    writeRedirectionEntry r base index raw base (redirection index) = (raw.setWidth 32).toNat := by
  simp [writeRedirectionEntry, writeRegister, redirectionHigh_eq]

theorem writeRedirectionEntry_other (r : IoApicRegs) {base index b offset : Nat} (raw : BitVec 64)
    (h : ¬ (b = base ∧ (offset = redirection index ∨ offset = redirection index + 1))) :
    writeRedirectionEntry r base index raw b offset = r b offset := by
  by_cases hb : b = base
  · subst hb
    have hoffset : offset ≠ redirection index ∧ offset ≠ redirection index + 1 := by tauto
    simp [writeRedirectionEntry, writeRegister, redirectionHigh_eq, hoffset]
  · simp [writeRedirectionEntry, writeRegister, hb]

/-- The entry that is written is the one to be programmed exactly when the base and the register are the right ones. -/
theorem programmed_iff {base index base' entry : Nat} :
    (∀ r, Programmed r (writeRedirectionEntry r base index (mappedEntry bspID vector logical).raw) base' entry vector) ↔
      base = base' ∧ redirection index = entryRegister entry := by
  constructor
  · intro h
    -- all entries are masked before, so that the write shows
    have hothers := (h fun _ _ => 2 ^ 16).others base (redirection index)
    rw [writeRedirectionEntry_low] at hothers
    have hunmasked : ((mappedEntry bspID vector logical).raw.setWidth 32).toNat ≠ 2 ^ 16 := by
      intro heq
      have hmask := raw_mask (mappedEntry bspID vector logical)
      rw [heq, Nat.testBit_two_pow_self] at hmask
      exact absurd hmask (by simp [mappedEntry])
    obtain ⟨rfl, hregister⟩ := Decidable.not_not.mp fun hne => hunmasked (hothers hne)
    refine ⟨rfl, ?_⟩
    simp only [redirection, entryRegister] at hregister ⊢
    omega
  · rintro ⟨rfl, hregister⟩ r
    have hlow := writeRedirectionEntry_low r base index (mappedEntry bspID vector logical).raw
    rw [hregister] at hlow
    refine ⟨?_, ?_, fun b offset hne => ?_⟩
    · rw [hlow]
      exact raw_vector _
    · rw [hlow, raw_mask]
      simp [mappedEntry]
    · exact writeRedirectionEntry_other r _ (by rwa [hregister])

/-! ## The choice of the I/O APIC -/

/-- An I/O APIC that does not own the interrupt is taken for it when its range ends right before it. -/
theorem taken_iff {irq : Nat} (hirq : irq < 2 ^ 8) (howns : ¬ Owns m ioapic irq) :
    (ioapicGsib m ioapic ≤ irq ∧ irq ≤ (ioapicGsib m ioapic + ioapicMaxInterrupts m ioapic) % 2 ^ 32) ↔
      ioapicGsib m ioapic + ioapicMaxInterrupts m ioapic = irq := by
  have hmax := m.read16_lt (ioapic + 10)
  rw [Owns] at howns
  omega

theorem taken_owner {irq : Nat} (hirq : irq < 2 ^ 8) (howns : Owns m owner irq) :
    ioapicGsib m owner ≤ irq ∧ irq ≤ (ioapicGsib m owner + ioapicMaxInterrupts m owner) % 2 ^ 32 := by
  have hmax : ioapicMaxInterrupts m owner < 2 ^ 16 := m.read16_lt (owner + 10)
  rw [Owns] at howns
  omega

/-- The owner is taken, or an I/O APIC before it whose range ends right before the interrupt. -/
theorem getIoApicByInterrupt_cases (hapart : IoApicsApart m info.ioapics) (hsplit : info.ioapics = before ++ owner :: after)
    (howns : Owns m owner irq.toNat) :
    (getIoApicByInterrupt m info irq = some owner ∧ ∀ i ∈ before, ioapicGsib m i + ioapicMaxInterrupts m i ≠ irq.toNat) ∨
      ∃ i ∈ before, getIoApicByInterrupt m info irq = some i ∧ ioapicGsib m i + ioapicMaxInterrupts m i = irq.toNat := by
  have hranges := hapart.ranges
  rw [hsplit, pairwise_append] at hranges
  have hothers : ∀ i ∈ before, ¬ Owns m i irq.toNat := by
    intro i hi hi'
    exact hranges.2.2 i hi owner mem_cons_self irq.toNat ⟨hi', howns⟩
  rw [getIoApicByInterrupt, hsplit, find?_append]
  cases hfind : before.find? fun i =>
      (ioapicGsib m i ≤ irq.toNat ∧ irq.toNat ≤ (ioapicGsib m i + ioapicMaxInterrupts m i) % 2 ^ 32 : Bool) with
  | none =>
    refine .inl ⟨?_, fun i hi hend => ?_⟩
    · rw [Option.none_or, find?_cons_of_pos (by simpa using taken_owner irq.isLt howns)]
    · have hnot := find?_eq_none.mp hfind i hi
      rw [decide_eq_true_iff] at hnot
      exact hnot ((taken_iff irq.isLt (hothers i hi)).mpr hend)
  | some i =>
    have hi := mem_of_find?_eq_some hfind
    have htaken := find?_some hfind
    rw [decide_eq_true_iff] at htaken
    exact .inr ⟨i, hi, rfl, (taken_iff irq.isLt (hothers i hi)).mp htaken⟩

/-! ## `ioapic_map_irq` -/

theorem routes_iff (hget : getIoApicByInterrupt m info irq = some ioapic) (howns : Owns m owner irq.toNat) :
    Routes m info bspID irq vector logical owner ↔
      ioapicAddress m ioapic = ioapicAddress m owner ∧ ioapicGsib m owner % 128 = 0 ∧ irq.toNat - ioapicGsib m owner < 120 := by
  simp only [Routes, ioapicMapIrq, hget, Except.ok.injEq, exists_eq_left']
  have hle := howns.1
  -- the register of the global number is that of the entry when the I/O APIC begins at 0 or 128
  rw [programmed_iff, redirection, entryRegister]
  omega

/-- An interrupt is routed to the I/O APIC that owns it exactly when no I/O APIC before that one ends right before the interrupt, and the
owner begins at a multiple of 128 and has the entry among its first 120. -/
theorem irq_routed_iff (hapart : IoApicsApart m info.ioapics) (hsplit : info.ioapics = before ++ owner :: after)
    (howns : Owns m owner irq.toNat) : Routes m info bspID irq vector logical owner ↔
      (∀ i ∈ before, ioapicGsib m i + ioapicMaxInterrupts m i ≠ irq.toNat) ∧ ioapicGsib m owner % 128 = 0 ∧
        irq.toNat - ioapicGsib m owner < 120 := by
  have haddresses := hapart.addresses
  rw [hsplit, List.pairwise_append] at haddresses
  obtain ⟨hget, hends⟩ | ⟨i, hi, hget, hend⟩ := getIoApicByInterrupt_cases hapart hsplit howns
  · rw [routes_iff hget howns, and_iff_right rfl, and_iff_right hends]
  · rw [routes_iff hget howns]
    constructor
    · rintro ⟨haddress, -⟩
      exact absurd haddress (haddresses.2.2 i hi owner List.mem_cons_self)
    · rintro ⟨hends, -⟩
      exact absurd hend (hends i hi)

/-! ## Two I/O APICs -/

/-- I/O APICs at 0x100 and 0x200 with 24 interrupts each, from 0 and from 24 on. -/
def ioapicMemory : Bytes
  | 0x104 => 0xC0
  | 0x105 => 0xFE
  | 0x10A => 24
  | 0x203 => 0x10
  | 0x204 => 0xC0
  | 0x205 => 0xFE
  | 0x206 => 24
  | 0x20A => 24
  | _ => 0

def twoIoApics : MadtInfo := ⟨[0], [0x100, 0x200], [], 0xFEE00000⟩

theorem twoIoApics_apart : IoApicsApart ioapicMemory twoIoApics.ioapics := by
  refine ⟨by decide, ?_⟩
  simp only [twoIoApics, pairwise_cons, mem_singleton, forall_eq]
  refine ⟨fun irq => ?_, by simp⟩
  rw [Owns, Owns, show ioapicGsib ioapicMemory 0x100 = 0 from rfl, show ioapicMaxInterrupts ioapicMemory 0x100 = 24 from rfl,
    show ioapicGsib ioapicMemory 0x200 = 24 from rfl]
  omega

/-- The keyboard's interrupt. -/
theorem irq_routed_keyboard : Routes ioapicMemory twoIoApics 0 1 33 false 0x100 :=
  (irq_routed_iff twoIoApics_apart (List.nil_append _).symm (by decide)).mpr ⟨by decide, by decide, by decide⟩

/-- Interrupt 24 is the second I/O APIC's first one and is programmed in the first I/O APIC; interrupt 25 is programmed in its entry 25. -/
theorem irq_misrouted : Owns ioapicMemory 0x200 24 ∧ Owns ioapicMemory 0x200 25 ∧
    (∀ r, ioapicMapIrq ioapicMemory twoIoApics 0 r 24 33 false =
      .ok (writeRedirectionEntry r 0xFEC00000 24 (mappedEntry 0 33 false).raw)) ∧
    (∀ r, ioapicMapIrq ioapicMemory twoIoApics 0 r 25 33 false =
      .ok (writeRedirectionEntry r 0xFEC01000 25 (mappedEntry 0 33 false).raw)) ∧
    ¬ Routes ioapicMemory twoIoApics 0 24 33 false 0x200 ∧ ¬ Routes ioapicMemory twoIoApics 0 25 33 false 0x200 := by
  have hfirst : getIoApicByInterrupt ioapicMemory twoIoApics 24 = some 0x100 := by decide
  have hsecond : getIoApicByInterrupt ioapicMemory twoIoApics 25 = some 0x200 := by decide
  refine ⟨by decide, by decide, fun r => ?_, fun r => ?_, ?_, ?_⟩
  · rw [ioapicMapIrq, hfirst]
    rfl
  · rw [ioapicMapIrq, hsecond]
    rfl
  · rw [routes_iff hfirst (by decide)]
    decide
  · rw [routes_iff hsecond (by decide)]
    decide

end OmegaOS
