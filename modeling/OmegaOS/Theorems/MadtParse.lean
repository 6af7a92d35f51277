import OmegaOS.Theorems.AcpiTables
import OmegaOS.Theorems.MadtReparse

/-!
# What `madt_init` makes of a table

It returns, without a store outside its arrays, exactly when no entry that it meets has length 0 and the entries fit the arrays. Then it
lists the processors, the I/O APICs and the overrides of the table; but for the address of the local APICs it takes the place of the
address in the table.
-/

namespace OmegaOS

variable {m : Bytes} {madt stop ptr fuel : Nat} {es : List Nat} {info : MadtInfo}

/-! ## Which tables it returns for -/

/-- A loop that returns has met entries with room for what they add. -/
theorem exists_walk {info' : MadtInfo} (hroom : RoomFor m info []) (h : madtLoop m stop fuel ptr info = .ok info') :
    ∃ es, Walk m stop ptr es ∧ RoomFor m info es := by
  induction fuel generalizing ptr info with
  | zero => cases h
  | succ fuel ih =>
    by_cases hlt : ptr < stop
    · have hlength : entryLength m ptr ≠ 0 := by
        intro hzero
        exact madtLoop_ne_ok hlt (UInt8.toNat.inj hzero) info info' h
      rw [madtLoop, if_pos hlt] at h
      obtain ⟨info1, hentry, hrest⟩ := bind_eq_ok.mp h
      have hroom1 : RoomFor m info1 [] := (madtEntry_room hentry []).mpr ((madtEntry_ok_iff hroom).mp ⟨info1, hentry⟩)
      obtain ⟨es, hwalk, hes⟩ := ih hroom1 hrest
      exact ⟨ptr :: es, .entry hlt hlength hwalk, (madtEntry_room hentry es).mp hes⟩
    · exact ⟨[], .done (not_lt.mp hlt), hroom⟩

theorem madtLoop_returns_iff (hroom : RoomFor m info []) :
    (∃ fuel info', madtLoop m stop fuel ptr info = .ok info') ↔ ∃ es, Walk m stop ptr es ∧ RoomFor m info es := by
  constructor
  · rintro ⟨fuel, info', h⟩
    exact exists_walk hroom h
  · rintro ⟨es, hwalk, hes⟩
    obtain ⟨info', h⟩ := (madtEntries_ok_iff hroom).mpr hes
    exact ⟨es.length + 1, info', (hwalk.madtLoop info (Nat.lt_succ_self _)).trans h⟩

theorem roomFor_empty (m : Bytes) (lapic : Nat) (es : List Nat) : RoomFor m ⟨[], [], [], lapic⟩ es ↔ ArraysFit m es := by
  simp [RoomFor, ArraysFit]

/-- `madt_init` returns without a store outside its arrays exactly when the entries that it meets all have a length and fit them. -/
theorem madtInit_returns_iff (hfound : madt ≠ null) :
    (∃ fuel info, madtInit m madt fuel = .ok info) ↔ ∃ es, Walk m (madtEnd m madt) (madt + 44) es ∧ ArraysFit m es := by
  simp only [madtInit, if_neg hfound]
  have hempty : ArraysFit m [] := by simp [ArraysFit]
  rw [madtLoop_returns_iff ((roomFor_empty m _ []).mpr hempty)]
  simp only [roomFor_empty]

/-! ## What it finds -/

/-- The last entry that has an address of the local APICs. -/
def lastLapicOverride (m : Bytes) (es : List Nat) : Option Nat := (es.filter (m · = 5)).getLast?

/-- The table has been read: the processors that are enabled, the I/O APICs and the overrides in their order, and the address of the local
APICs. -/
structure MadtRead (m : Bytes) (madt : Nat) (es : List Nat) (info : MadtInfo) : Prop where
  coreIDs : info.coreIDs = (es.filter (isCore m ·)).map fun e => m (e + 3)
  ioapics : info.ioapics = (es.filter (m · = 1)).map (· + 2)
  overrides : info.ioapicInterruptOverride = (es.filter (m · = 2)).map (· + 2)
  lapic : info.lapic = ((lastLapicOverride m es).map fun e => m.read64 (e + 4)).getD (m.read32 (madt + 36))

theorem Madt.read_iff (h : Madt m madt es) (hinit : OmegaOS.madtInit m madt fuel = .ok info) :
    MadtRead m madt es info ↔ ∀ e, lastLapicOverride m es = some e → m.read64 (e + 4) = e + 4 := by
  rw [OmegaOS.madtInit, if_neg h.found] at hinit
  have hadded := madtEntries_added (h.entries.walk.madtLoop_ok hinit)
  have hlapic := hadded.lapic
  rw [← lastLapicOverride] at hlapic
  constructor
  · intro hread e he
    have heq := hread.lapic.symm.trans hlapic
    rwa [he, Option.map_some, Option.map_some, Option.getD_some, Option.getD_some] at heq
  · intro hplace
    refine ⟨by simpa using hadded.coreIDs, by simpa using hadded.ioapics, by simpa using hadded.overrides, ?_⟩
    rw [hlapic]
    cases he : lastLapicOverride m es with
    | none => rw [Option.map_none, Option.map_none]
    | some e => rw [Option.map_some, Option.map_some, Option.getD_some, Option.getD_some, hplace e he]

/-- `madt_init` reads a well-formed table that fits its arrays exactly when the last entry with an address of the local APICs, if there
is one, holds its own place in memory. -/
theorem madtInit_reads_iff (h : Madt m madt es) (hfits : ArraysFit m es) :
    (∃ fuel info, madtInit m madt fuel = .ok info ∧ MadtRead m madt es info) ↔
      ∀ e, lastLapicOverride m es = some e → m.read64 (e + 4) = e + 4 := by
  constructor
  · rintro ⟨fuel, info, hinit, hread⟩
    exact (h.read_iff hinit).mp hread
  · intro hplace
    obtain ⟨info, hinit⟩ := (h.madtInit_ok_iff (Nat.lt_succ_self _)).mpr hfits
    exact ⟨_, info, hinit, (h.read_iff hinit).mpr hplace⟩

/-! ## Sample tables -/

/-- A processor and an I/O APIC. -/
theorem madtInit_returns_lapic_first : ∃ fuel info, madtInit (tableAt (lapicBytes ++ ioapicBytes)) 0x1000 fuel = .ok info :=
  (madtInit_returns_iff (by decide)).mpr ⟨[0x102C, 0x1034], madt_lapic_first.entries.walk, by decide, by decide, by decide⟩

theorem madtInit_reads_lapic_first : ∃ fuel info, madtInit (tableAt (lapicBytes ++ ioapicBytes)) 0x1000 fuel = .ok info ∧
    MadtRead (tableAt (lapicBytes ++ ioapicBytes)) 0x1000 [0x102C, 0x1034] info :=
  (madtInit_reads_iff madt_lapic_first ⟨by decide, by decide, by decide⟩).mpr fun _ he => nomatch he

/-- A table with the byte that makes its checksum right. -/
def checkedTable (entries : List UInt8) (checksum : UInt8) : Bytes := Function.update (tableAt entries) 0x1009 checksum

/-- An entry of length 0 keeps the loop where it is, and the ninth I/O APIC is stored behind the array. -/
theorem madtInit_spins_or_overflows :
    ValidTable (checkedTable [0, 0] 210) 0x1000 ∧ (∀ fuel info, madtInit (checkedTable [0, 0] 210) 0x1000 fuel ≠ .ok info) ∧
      ValidTable (checkedTable (List.replicate 9 [1, 2]).flatten 167) 0x1000 ∧
      madtInit (checkedTable (List.replicate 9 [1, 2]).flatten 167) 0x1000 20 = .error .outOfBounds := by
  refine ⟨by rw [ValidTable]; decide, fun fuel info => ?_, by rw [ValidTable]; decide +kernel, by decide +kernel⟩
  rw [madtInit, if_neg (by decide)]
  exact madtLoop_ne_ok (by decide) (by decide) _ _

/-- The local APICs are at `0xFEE00000`. -/
def lapicOverrideBytes : List UInt8 := [5, 12, 0, 0, 0, 0, 0xE0, 0xFE, 0, 0, 0, 0]

theorem madt_lapic_override : Madt (tableAt lapicOverrideBytes) 0x1000 [0x102C] :=
  ⟨by decide, .entry (by decide) (by decide) .done⟩

/-- `_MADT.lapic` is where the address is, not the address. -/
theorem madtInit_keeps_place : Madt (tableAt lapicOverrideBytes) 0x1000 [0x102C] ∧
    (tableAt lapicOverrideBytes).read64 0x1030 = 0xFEE00000 ∧ madtInit (tableAt lapicOverrideBytes) 0x1000 2 = .ok ⟨[], [], [], 0x1030⟩ ∧
    ¬ ∃ fuel info, madtInit (tableAt lapicOverrideBytes) 0x1000 fuel = .ok info ∧ MadtRead (tableAt lapicOverrideBytes) 0x1000 [0x102C] info := by
  have haddress : (tableAt lapicOverrideBytes).read64 0x1030 = 0xFEE00000 := by decide
  refine ⟨madt_lapic_override, haddress, by decide, ?_⟩
  rintro ⟨fuel, info, hinit, hread⟩
  have hplace := (madt_lapic_override.read_iff hinit).mp hread 0x102C (by decide)
  rw [haddress] at hplace
  exact absurd hplace (by decide)

end OmegaOS
