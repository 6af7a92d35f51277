import Mathlib.Data.Nat.Bitwise
import OmegaOS.Lemmas.Madt

/-!
# Parsing the interrupt controllers' table twice

`ioapic_init` stores the number of interrupts behind the twelve bytes of an I/O APIC entry, where the next entry has its type and its
length. The length that is left is 0 or 1, so a second `madt_init` finds the same table only when no entry begins there. Entries of less
than twelve bytes are overwritten in other places as well.
-/

namespace OmegaOS

open List

variable {a v : Nat} {r' : IoApicRegs} {info : MadtInfo}

variable {m m' : Bytes} {fuel : Nat} {es : List Nat}

/-! ## What `ioapic_init` writes -/

variable {r : IoApicRegs} {ioapic : Nat} {qs : List Nat}

/-- The check of the I/O APIC's id passes. -/
def IdChecked (m : Bytes) (r : IoApicRegs) (ioapic : Nat) : Prop :=
  ioapicId m ioapic = r (ioapicAddress m ioapic) ioApicIdReg >>> 24 &&& 0xF0

instance : Decidable (IdChecked m r ioapic) := inferInstanceAs (Decidable (_ = _))

/-- The number of interrupts that the I/O APIC reports. -/
def reported (m : Bytes) (r : IoApicRegs) (ioapic : Nat) : Nat := interruptCount (r (ioapicAddress m ioapic) ioApicVerReg)

/-- Masked interrupts leave the version and the id as they are. -/
theorem maskInterrupts_ok (base : Nat) (js : List Nat) (r : IoApicRegs) : ∃ r', js.foldlM (fun r j => maskInterrupt r base j) r = .ok r' ∧
      ∀ b, r' b ioApicVerReg = r b ioApicVerReg ∧ r' b ioApicIdReg >>> 24 = r b ioApicIdReg >>> 24 := by
  induction js generalizing r with
  | nil => exact ⟨r, rfl, fun _ => ⟨rfl, rfl⟩⟩
  | cons j js ih =>
    obtain ⟨r', hrun, hsame⟩ := ih (writeRegister r base (redirection j) (r base (redirection j) ||| 2 ^ 16))
    refine ⟨r', ?_, fun b => ?_⟩
    · rwa [foldlM_cons, maskInterrupt, if_pos (by simp [writeRegister])]
    · obtain ⟨hver, hid⟩ := hsame b
      have hodd : ioApicVerReg ≠ redirection j := by
        simp only [ioApicVerReg, redirection]
        omega
      rw [hver, hid]
      by_cases hb : b = base
      · subst hb
        refine ⟨by simp [writeRegister, hodd], ?_⟩
        by_cases hj : redirection j = ioApicIdReg
        · simp [writeRegister, hj, Nat.shiftRight_or_distrib]
        · simp [writeRegister, Ne.symm hj]
      · simp [writeRegister, hb]

theorem ioapicRound_ok (hid : IdChecked m r ioapic) :
    ∃ r', ioapicRound (m, r) ioapic = .ok (m.write16 (ioapic + 10) (reported m r ioapic), r') ∧
      ∀ b, r' b ioApicVerReg = r b ioApicVerReg ∧ r' b ioApicIdReg >>> 24 = r b ioApicIdReg >>> 24 := by
  rw [IdChecked] at hid
  rw [ioapicRound]
  dsimp only
  rw [if_pos hid]
  obtain ⟨r', hrun, hsame⟩ := maskInterrupts_ok (ioapicAddress (m.write16 (ioapic + 10) (reported m r ioapic)) ioapic)
    (range ((m.write16 (ioapic + 10) (reported m r ioapic)).read16 (ioapic + 10))) r
  refine ⟨r', ?_, hsame⟩
  rw [reported] at hrun
  rw [hrun]
  rfl

/-- The memory after the rounds for these I/O APICs. -/
def stored (r : IoApicRegs) (m : Bytes) (qs : List Nat) : Bytes := qs.foldl (fun m p => m.write16 (p + 10) (reported m r p)) m

/-- Each I/O APIC has its id when its round comes. -/
def IdsChecked (r : IoApicRegs) : Bytes → List Nat → Prop
  | _, [] => True
  | m, p :: qs => IdChecked m r p ∧ IdsChecked r (m.write16 (p + 10) (reported m r p)) qs

instance decidableIdsChecked (r : IoApicRegs) : (m : Bytes) → (qs : List Nat) → Decidable (IdsChecked r m qs)
  | _, [] => inferInstanceAs (Decidable True)
  | m, p :: qs =>
    have := decidableIdsChecked r (m.write16 (p + 10) (reported m r p)) qs
    inferInstanceAs (Decidable (IdChecked m r p ∧ _))

/-- Masked interrupts change neither what is checked nor what is stored. -/
theorem idsChecked_congr (hr : ∀ b, r' b ioApicVerReg = r b ioApicVerReg ∧ r' b ioApicIdReg >>> 24 = r b ioApicIdReg >>> 24)
    (m : Bytes) (qs : List Nat) : (IdsChecked r' m qs ↔ IdsChecked r m qs) ∧ stored r' m qs = stored r m qs := by
  induction qs generalizing m with
  | nil => exact ⟨.rfl, rfl⟩
  | cons p qs ih =>
    have hreported : ∀ m, reported m r' p = reported m r p := fun m => by rw [reported, (hr _).1, reported]
    have hid : IdChecked m r' p ↔ IdChecked m r p := by rw [IdChecked, (hr _).2, IdChecked]
    rw [IdsChecked, IdsChecked, stored, stored, foldl_cons, foldl_cons, hreported, hid]
    exact ⟨and_congr_right fun _ => (ih _).1, (ih _).2⟩

/-- The rounds return exactly when the ids check, and write the numbers of interrupts. -/
theorem ioapicRounds_iff : ((∃ s, qs.foldlM ioapicRound (m, r) = .ok s) ↔ IdsChecked r m qs) ∧
    ∀ s, qs.foldlM ioapicRound (m, r) = .ok s → s.1 = stored r m qs := by
  induction qs generalizing m r with
  | nil =>
    refine ⟨iff_of_true ⟨_, rfl⟩ trivial, ?_⟩
    rintro s ⟨⟩
    rfl
  | cons p qs ih =>
    rw [foldlM_cons, IdsChecked, stored, foldl_cons]
    by_cases hid : IdChecked m r p
    · obtain ⟨r', hround, hr⟩ := ioapicRound_ok hid
      obtain ⟨hchecked, hstored⟩ := idsChecked_congr hr (m.write16 (p + 10) (reported m r p)) qs
      rw [hround, and_iff_right hid, ← hchecked]
      exact ⟨ih.1, fun s hs => (ih.2 s hs).trans hstored⟩
    · have herror : ioapicRound (m, r) p = .error (.halt (.assertion "ioapic->id == id")) := by
        rw [ioapicRound]
        exact if_neg hid
      rw [herror]
      exact ⟨iff_of_false (by rintro ⟨_, ⟨⟩⟩) fun h => hid h.1, fun s hs => nomatch hs⟩

theorem stored_kept (ha : ∀ p ∈ qs, a ≠ p + 10 ∧ a ≠ p + 11) : stored r m qs a = m a := by
  induction qs generalizing m with
  | nil => rfl
  | cons p qs ih =>
    obtain ⟨hp, hrest⟩ := forall_mem_cons.mp ha
    exact (ih hrest).trans (by simp [Bytes.write16, hp.1, hp.2])

/-- The high byte of a number of interrupts is 0 or 1. -/
theorem stored_high (hapart : qs.Pairwise fun p q => p + 2 ≤ q) (hp : p ∈ qs) : (stored r m qs (p + 11)).toNat ≤ 1 := by
  induction qs generalizing m with
  | nil => cases hp
  | cons q qs ih =>
    obtain ⟨hlater, hrest⟩ := pairwise_cons.mp hapart
    rcases mem_cons.mp hp with rfl | hp
    · have hkept : stored r (m.write16 (p + 10) (reported m r p)) qs (p + 11) = .ofNat (reported m r p / 2 ^ 8) := by
        rw [stored_kept fun q hq => ?_]
        · simp [Bytes.write16]
        · have := hlater q hq
          omega
      have hcount : r (ioapicAddress m p) ioApicVerReg >>> 16 &&& 0xFF ≤ 0xFF := Nat.and_le_right
      rw [stored, foldl_cons, ← stored, hkept, UInt8.toNat_ofNat', reported, interruptCount]
      omega
    · exact ih hrest hp

/-! ## The second parse -/

/-- A well-formed table at `madt`, with its entries. -/
structure Madt (m : Bytes) (madt : Nat) (es : List Nat) : Prop where
  found : madt ≠ null
  entries : Entries m (madtEnd m madt) (madt + 44) es

/-- `madt_init`, `ioapic_init` and `madt_init` again return, both parses find the same, and no type and no length of an entry changes. -/
def Reparsed (m : Bytes) (r : IoApicRegs) (apicInitialized : Bool) (madt fuel : Nat) (es : List Nat) : Prop :=
  ∃ info m' r', madtInit m madt fuel = .ok info ∧ ioapicInit apicInitialized info m r = .ok (m', r') ∧ madtInit m' madt fuel = .ok info ∧
    ∀ e ∈ es, m' e = m e ∧ m' (e + 1) = m (e + 1)

/-- `_MADT.ioapics` of a table with these entries. -/
def tableIoapics (m : Bytes) (es : List Nat) : List Nat := (es.filter (m · = 1)).map (· + 2)

/-- `_MADT.coreIDs`. -/
def tableCores (m : Bytes) (es : List Nat) : List UInt8 := (es.filter (isCore m ·)).map fun e => m (e + 3)

/-- The entries fit into the arrays of `_MADT`. -/
def ArraysFit (m : Bytes) (es : List Nat) : Prop :=
  es.countP (isCore m ·) ≤ maxCores ∧ es.countP (m · = 1) ≤ maxIoApic ∧ es.countP (m · = 2) ≤ maxIoApicRedirects

/-- Each I/O APIC has its id, and its number of interrupts, at the offsets 12 and 13 from its entry, spares the others: no entry begins with
the number; the type of one that begins with the high byte, and the length of one that begins before the low byte, are these bytes already;
and the processors that are enabled stay the same. -/
structure Spares (m : Bytes) (r : IoApicRegs) (es : List Nat) : Prop where
  ids : IdsChecked r m (tableIoapics m es)
  number : ∀ e ∈ es, m e = 1 → e + 12 ∉ es
  high : ∀ e ∈ es, m e = 1 → e + 13 ∈ es → stored r m (tableIoapics m es) (e + 13) = m (e + 13)
  low : ∀ e ∈ es, m e = 1 → e + 11 ∈ es → stored r m (tableIoapics m es) (e + 12) = m (e + 12)
  cores : tableCores (stored r m (tableIoapics m es)) es = tableCores m es

variable {madt : Nat}

theorem mem_tableIoapics : p ∈ tableIoapics m es ↔ ∃ e, (e ∈ es ∧ m e = 1) ∧ e + 2 = p := by
  simp only [tableIoapics, mem_map, mem_filter, decide_eq_true_eq]

theorem Spares.headers (hs : Spares m r es) (he : e ∈ es) :
    stored r m (tableIoapics m es) e = m e ∧ stored r m (tableIoapics m es) (e + 1) = m (e + 1) := by
  -- a byte of the header is in no number, or it is the high byte of one that begins before, or the low byte of one that begins with it
  constructor
  · by_cases hover : ∃ q ∈ es, m q = 1 ∧ e = q + 13
    · obtain ⟨q, hq, htype, rfl⟩ := hover
      exact hs.high q hq htype he
    · refine stored_kept fun p hp => ?_
      obtain ⟨q, ⟨hq, htype⟩, rfl⟩ := mem_tableIoapics.mp hp
      exact ⟨fun he' => hs.number q hq htype (by rwa [← he']), fun he' => hover ⟨q, hq, htype, he'⟩⟩
  · by_cases hover : ∃ q ∈ es, m q = 1 ∧ e = q + 11
    · obtain ⟨q, hq, htype, rfl⟩ := hover
      exact hs.low q hq htype he
    · refine stored_kept fun p hp => ?_
      obtain ⟨q, ⟨hq, htype⟩, rfl⟩ := mem_tableIoapics.mp hp
      refine ⟨fun he' => hover ⟨q, hq, htype, by omega⟩, fun he' => hs.number q hq htype ?_⟩
      rwa [show q + 12 = e by omega]

section

variable (h : Madt m madt es)

include h

theorem Madt.madtInit (hfuel : es.length < fuel) : madtInit m madt fuel = es.foldlM (madtEntry m) ⟨[], [], [], m.read32 (madt + 36)⟩ := by
  rw [OmegaOS.madtInit, if_neg h.found]
  exact h.entries.walk.madtLoop _ hfuel

theorem Madt.madtInit_ok_iff (hfuel : es.length < fuel) : (∃ info, OmegaOS.madtInit m madt fuel = .ok info) ↔ ArraysFit m es := by
  rw [h.madtInit hfuel, madtEntries_ok_iff ⟨Nat.zero_le _, Nat.zero_le _, Nat.zero_le _⟩]
  simp [RoomFor, ArraysFit]

theorem Madt.apart : (tableIoapics m es).Pairwise fun p q => p + 2 ≤ q := by
  refine pairwise_map.mpr ((List.Pairwise.and_mem.mp (h.entries.pairwise.filter _)).imp ?_)
  rintro e e' ⟨he, -, hle⟩
  have := (h.entries.mem e (mem_filter.mp he).1).2.2
  omega

/-- `ioapic_init` after the first parse. -/
theorem Madt.ioapicInit_iff (hfuel : es.length < fuel) (hfirst : OmegaOS.madtInit m madt fuel = .ok info) :
    ((∃ s, ioapicInit true info m r = .ok s) ↔ IdsChecked r m (tableIoapics m es)) ∧
      ∀ s, ioapicInit true info m r = .ok s → s.1 = stored r m (tableIoapics m es) := by
  rw [h.madtInit hfuel] at hfirst
  have hioapics : info.ioapics = tableIoapics m es := (madtEntries_added hfirst).ioapics
  rw [ioapicInit, if_pos rfl, hioapics]
  exact ioapicRounds_iff

/-- The headers of the table lie before all that is written. -/
theorem Madt.read32_stored (ha : a + 3 < madt + 44) : (stored r m (tableIoapics m es)).read32 a = m.read32 a := by
  have hkept : ∀ d ≤ 3, stored r m (tableIoapics m es) (a + d) = m (a + d) := by
    intro d hd
    refine stored_kept fun p hp => ?_
    obtain ⟨e, ⟨he, -⟩, rfl⟩ := mem_tableIoapics.mp hp
    have := (h.entries.mem e he).1
    omega
  rw [Bytes.read32, Bytes.read32, hkept 1 (by omega), hkept 2 (by omega), hkept 3 (by omega)]
  rw [show stored r m (tableIoapics m es) a = m a from hkept 0 (by omega)]

/-- With its types and lengths a table keeps its entries. -/
theorem Madt.kept (hheaders : ∀ e ∈ es, stored r m (tableIoapics m es) e = m e ∧
      stored r m (tableIoapics m es) (e + 1) = m (e + 1)) : Madt (stored r m (tableIoapics m es)) madt es := by
  refine ⟨h.found, ?_⟩
  rw [madtEnd, h.read32_stored (by omega), ← madtEnd]
  exact h.entries.congr fun e he => (hheaders e he).2

theorem Madt.spares (hfuel : es.length < fuel) (hreparsed : Reparsed m r true madt fuel es) : Spares m r es := by
  obtain ⟨info, m', r', hfirst, hio, hsecond, hheaders⟩ := hreparsed
  obtain ⟨hids, hstored⟩ := h.ioapicInit_iff (r := r) hfuel hfirst
  obtain rfl : m' = _ := hstored _ hio
  refine ⟨hids.mp ⟨_, hio⟩, fun e he htype hmem => ?_, fun e he htype hmem => (hheaders _ hmem).1,
    fun e he htype hmem => (hheaders _ hmem).2, ?_⟩
  · -- the entry would have a length below two
    have hlong := (h.entries.mem _ hmem).2.2
    have hhigh := stored_high (r := r) (m := m) h.apart (mem_tableIoapics.mpr ⟨e, ⟨he, htype⟩, rfl⟩)
    have hsame : stored r m (tableIoapics m es) (e + 2 + 11) = m (e + 12 + 1) := (hheaders _ hmem).2
    rw [hsame] at hhigh
    rw [entryLength] at hlong
    omega
  · rw [(h.kept hheaders).madtInit hfuel] at hsecond
    rw [h.madtInit hfuel] at hfirst
    have hcores := (madtEntries_added hsecond).coreIDs
    rw [(madtEntries_added hfirst).coreIDs] at hcores
    exact hcores.symm

/-- Two tables with the same types and processors are read alike. -/
theorem Madt.reread (hfuel : es.length < fuel) (hs : Spares m r es) (hfirst : OmegaOS.madtInit m madt fuel = .ok info) :
    OmegaOS.madtInit (stored r m (tableIoapics m es)) madt fuel = .ok info := by
  have hheaders := fun e he => hs.headers (e := e) he
  have h' := h.kept hheaders
  have hfit := (h.madtInit_ok_iff hfuel).mp ⟨info, hfirst⟩
  have hlapic := h.read32_stored (r := r) (a := madt + 36) (by omega)
  have hcores := hs.cores
  generalize stored r m (tableIoapics m es) = m' at hheaders h' hlapic hcores ⊢
  have htypes : ∀ v : UInt8, es.filter (m' · = v) = es.filter (m · = v) := fun v =>
    filter_congr fun e he => by rw [(hheaders e he).1]
  have hcount : ∀ v : UInt8, es.countP (m' · = v) = es.countP (m · = v) := fun v => by
    rw [countP_eq_length_filter, htypes, countP_eq_length_filter]
  have hcoreCount : es.countP (isCore m' ·) = es.countP (isCore m ·) := by
    have hlength := congrArg length hcores
    rwa [tableCores, tableCores, length_map, length_map, ← countP_eq_length_filter, ← countP_eq_length_filter] at hlength
  obtain ⟨info', hsecond⟩ := (h'.madtInit_ok_iff hfuel).mpr (by rwa [ArraysFit, hcoreCount, hcount, hcount])
  rw [hsecond]
  rw [h'.madtInit hfuel] at hsecond
  rw [h.madtInit hfuel] at hfirst
  have hadded' := madtEntries_added hsecond
  have hadded := madtEntries_added hfirst
  refine congrArg Except.ok (MadtInfo.ext (hadded'.coreIDs.trans (hcores.trans hadded.coreIDs.symm)) ?_ ?_ ?_)
  · rw [hadded'.ioapics, htypes, hadded.ioapics]
  · rw [hadded'.overrides, htypes, hadded.overrides]
  · rw [hadded'.lapic, htypes, hlapic, hadded.lapic]

end

/-- A second parse finds what the first has found exactly when the entries fit into the arrays and what `ioapic_init` writes spares them. -/
theorem madt_reparsed_iff (h : Madt m madt es) (r : IoApicRegs) (apicInitialized : Bool) (hfuel : es.length < fuel) :
    Reparsed m r apicInitialized madt fuel es ↔ ArraysFit m es ∧ (apicInitialized = true → Spares m r es) := by
  constructor
  · intro hreparsed
    refine ⟨?_, by rintro rfl; exact h.spares hfuel hreparsed⟩
    obtain ⟨info, -, -, hfirst, -⟩ := hreparsed
    exact (h.madtInit_ok_iff hfuel).mp ⟨info, hfirst⟩
  · rintro ⟨hfit, hspares⟩
    obtain ⟨info, hfirst⟩ := (h.madtInit_ok_iff hfuel).mpr hfit
    cases apicInitialized with
    | false => exact ⟨info, m, r, hfirst, rfl, hfirst, fun _ _ => ⟨rfl, rfl⟩⟩
    | true =>
      have hs := hspares rfl
      obtain ⟨hids, hstored⟩ := h.ioapicInit_iff (r := r) hfuel hfirst
      obtain ⟨⟨m', r'⟩, hio⟩ := hids.mpr hs.ids
      obtain rfl : m' = _ := hstored _ hio
      exact ⟨info, _, r', hfirst, hio, h.reread hfuel hs hfirst, fun e he => hs.headers he⟩

/-! ## Two tables -/

/-- A table with the bytes of its entries at `0x1000`. -/
def tableAt (entries : List UInt8) : Bytes := fun a =>
  if a = 0x1004 then .ofNat (44 + entries.length) else if a < 0x102C then 0 else entries.getD (a - 0x102C) 0

/-- An enabled processor. -/
def lapicBytes : List UInt8 := [0, 8, 0, 0, 1, 0, 0, 0]

/-- An I/O APIC at `0xFEC00000`. -/
def ioapicBytes : List UInt8 := [1, 12, 0, 0, 0, 0, 0xC0, 0xFE, 0, 0, 0, 0]

/-- An I/O APIC with 24 interrupts. -/
def sampleRegs : IoApicRegs := fun _ offset => if offset = ioApicVerReg then 0x170011 else 0

theorem madt_lapic_first : Madt (tableAt (lapicBytes ++ ioapicBytes)) 0x1000 [0x102C, 0x1034] :=
  ⟨by decide, .entry (by decide) (by decide) (.entry (by decide) (by decide) .done)⟩

theorem madt_reparsed_lapic_first : Reparsed (tableAt (lapicBytes ++ ioapicBytes)) sampleRegs true 0x1000 3 [0x102C, 0x1034] :=
  (madt_reparsed_iff madt_lapic_first sampleRegs true (by decide)).mpr
    ⟨⟨by decide, by decide, by decide⟩, fun _ => ⟨by decide, by decide, by decide, by decide, by decide⟩⟩

theorem madt_ioapic_first : Madt (tableAt (ioapicBytes ++ lapicBytes)) 0x1000 [0x102C, 0x1038] :=
  ⟨by decide, .entry (by decide) (by decide) (.entry (by decide) (by decide) .done)⟩

/-- The processor's entry follows that of the I/O APIC: its length becomes 0, and the second `madt_init` never returns. -/
theorem madt_reparse_spins : ∃ info m' r', OmegaOS.madtInit (tableAt (ioapicBytes ++ lapicBytes)) 0x1000 3 = .ok info ∧
      ioapicInit true info (tableAt (ioapicBytes ++ lapicBytes)) sampleRegs = .ok (m', r') ∧ m' 0x1039 = 0 ∧
      ∀ fuel info', OmegaOS.madtInit m' 0x1000 fuel ≠ .ok info' := by
  have h := madt_ioapic_first
  have hfuel : [0x102C, 0x1038].length < 3 := by decide
  obtain ⟨info, hfirst⟩ := (h.madtInit_ok_iff hfuel).mpr ⟨by decide, by decide, by decide⟩
  obtain ⟨hids, hstored⟩ := h.ioapicInit_iff (r := sampleRegs) hfuel hfirst
  obtain ⟨⟨m', r'⟩, hio⟩ := hids.mpr (by decide)
  have hm' : m' = stored sampleRegs (tableAt (ioapicBytes ++ lapicBytes)) [0x102E] := hstored _ hio
  have hlength : m' 0x1039 = 0 := by
    rw [hm']
    decide
  refine ⟨info, m', r', hfirst, hio, hlength, fun fuel info' hok => ?_⟩
  have hfirstLength : m' 0x102D = 12 := by
    rw [hm']
    decide
  have hend : madtEnd m' 0x1000 = 0x1040 := by
    rw [hm']
    decide
  rw [OmegaOS.madtInit, if_neg (by decide), hend] at hok
  cases fuel with
  | zero => cases hok
  | succ fuel =>
    rw [madtLoop, if_pos (by decide)] at hok
    obtain ⟨info1, -, hrest⟩ := bind_eq_ok.mp hok
    rw [hfirstLength] at hrest
    exact madtLoop_ne_ok (by decide) hlength _ _ hrest

end OmegaOS
