import OmegaOS.Ide
import OmegaOS.Theorems.Mount

/-!
# The sectors of a block

The drive is sent 28 bits of the number of a sector. Blocks have sectors of their own as long as all sectors of the volume are below
`2 ^ 28`; `ext2_init` does not check that.
-/

namespace OmegaOS

open Ext2

variable {fs fs' : Ext2} {block lba q left : Nat} {sector : BitVec 32} {raw root : FsNode}

/-- `readBlock` or `writeBlock` of the block sends the address to the drive, in some course of the reads. -/
def Ext2.Sends (fs : Ext2) (block lba : Nat) : Prop :=
  (∃ status buffer, lba ∈ (fs.readBlockCommands status block buffer).filterMap (·.lba?)) ∨
    ∃ buffer, lba ∈ (fs.writeBlockCommands block buffer).filterMap (·.lba?)

/-- No address is sent for two blocks of the volume. -/
def Ext2.SectorsApart (fs : Ext2) : Prop :=
  ∀ a b, a < fs.superBlock.blocksCount → b < fs.superBlock.blocksCount → a ≠ b → ∀ lba, ¬ (fs.Sends a lba ∧ fs.Sends b lba)

/-! ## The registers -/

/-- Bits of a sector number that are masked and shifted down. -/
theorem toNat_masked (sector mask : BitVec 32) (k : Nat) (hmask : (mask >>> k).toNat = 2 ^ w - 1) :
    ((sector &&& mask) >>> k).toNat = sector.toNat / 2 ^ k % 2 ^ w := by
  rw [BitVec.ushiftRight_and_distrib, BitVec.toNat_and, BitVec.toNat_ushiftRight sector, hmask, Nat.and_two_pow_sub_one_eq_mod,
    Nat.shiftRight_eq_div_pow]

theorem toNat_byte (sector mask : BitVec 32) (k : Nat) (hmask : (mask >>> k).toNat = 2 ^ 8 - 1) :
    (((sector &&& mask) >>> k).setWidth 8).toNat = sector.toNat / 2 ^ k % 2 ^ 8 := by
  simp [toNat_masked sector mask k hmask]

/-- The drive takes the last 28 bits of the sector's number. -/
theorem lba_addressRegisters (sector : BitVec 32) : (addressRegisters sector).lba = sector.toNat % 2 ^ 28 := by
  have h0 : (addressRegisters sector).lba0.toNat = sector.toNat / 2 ^ 0 % 2 ^ 8 := toNat_byte sector 0x000000FF 0 (by decide)
  have h1 : (addressRegisters sector).lba1.toNat = sector.toNat / 2 ^ 8 % 2 ^ 8 := toNat_byte sector 0x0000FF00 8 (by decide)
  have h2 : (addressRegisters sector).lba2.toNat = sector.toNat / 2 ^ 16 % 2 ^ 8 := toNat_byte sector 0x00FF0000 16 (by decide)
  have h3 : (addressRegisters sector).hddevsel.toNat % 2 ^ 4 = sector.toNat / 2 ^ 24 % 2 ^ 4 := by
    have hmasked : ((sector &&& 0x0F000000) >>> 24).toNat = sector.toNat / 2 ^ 24 % 2 ^ 4 := toNat_masked sector _ 24 (by decide)
    rw [addressRegisters, BitVec.toNat_setWidth, BitVec.toNat_or, hmasked, Nat.mod_mod_of_dvd _ (by decide : 2 ^ 4 ∣ 2 ^ 8), Nat.or_mod_two_pow,
      Nat.mod_mod]
    exact Nat.zero_or _
  rw [AddressRegisters.lba, h0, h1, h2, h3]
  omega

/-! ## The loops -/

/-- The address of the next sector, which is the `k`th from there on. -/
theorem next_lba (sector : BitVec 32) (k : Nat) : ((sector + 1).toNat + k) % 2 ^ 28 = (sector.toNat + (k + 1)) % 2 ^ 28 := by
  rw [BitVec.toNat_add, show (1 : BitVec 32).toNat = 1 from rfl]
  omega

theorem ideWriteLoop_lba : lba ∈ (ideWriteLoop sector left).filterMap (·.lba?) ↔ ∃ k < left, lba = (sector.toNat + k) % 2 ^ 28 := by
  induction left generalizing sector with
  | zero => simp [ideWriteLoop]
  | succ left ih =>
    have hcommands : (ideWriteLoop sector (left + 1)).filterMap (·.lba?) =
        sector.toNat % 2 ^ 28 :: (ideWriteLoop (sector + 1) left).filterMap (·.lba?) := by
      rw [← lba_addressRegisters]
      rfl
    rw [hcommands, List.mem_cons, ih]
    constructor
    · rintro (rfl | ⟨k, hk, rfl⟩)
      · exact ⟨0, Nat.succ_pos left, rfl⟩
      · exact ⟨k + 1, Nat.succ_lt_succ hk, next_lba sector k⟩
    · rintro ⟨k, hk, rfl⟩
      cases k with
      | zero => exact .inl rfl
      | succ k => exact .inr ⟨k, Nat.lt_of_succ_lt_succ hk, (next_lba sector k).symm⟩

/-- A read that fails has sent a part of the addresses. -/
theorem ideReadLoop_lba {status : Nat → BitVec 8}
    (h : lba ∈ (ideReadLoop status sector i left).2.filterMap (·.lba?)) : ∃ k < left, lba = (sector.toNat + k) % 2 ^ 28 := by
  induction left generalizing sector i with
  | zero => cases h
  | succ left ih =>
    have hcommands : ∃ commands, (ideReadLoop status sector i (left + 1)).2.filterMap (·.lba?) = sector.toNat % 2 ^ 28 :: commands ∧
        ∀ a ∈ commands, a ∈ (ideReadLoop status (sector + 1) (i + 1) left).2.filterMap (·.lba?) := by
      rw [ideReadLoop, ← lba_addressRegisters]
      split
      · exact ⟨[], rfl, fun _ ha => nomatch ha⟩
      · exact ⟨_, rfl, fun _ ha => ha⟩
    obtain ⟨commands, heq, hrest⟩ := hcommands
    rw [heq, List.mem_cons] at h
    rcases h with rfl | h
    · exact ⟨0, Nat.succ_pos left, rfl⟩
    · obtain ⟨k, hk, rfl⟩ := ih (hrest lba h)
      exact ⟨k + 1, Nat.succ_lt_succ hk, next_lba sector k⟩

/-! ## Blocks -/

theorem b2s_lba (fs : Ext2) (block k : Nat) : ((fs.b2s block).toNat + k) % 2 ^ 28 = (block * fs.sectorsPerBlock + k) % 2 ^ 28 := by
  rw [Ext2.b2s, BitVec.toNat_ofNat]
  omega

theorem sends_iff : fs.Sends block lba ↔ ∃ k < fs.sectorsPerBlock, lba = (block * fs.sectorsPerBlock + k) % 2 ^ 28 := by
  simp only [← b2s_lba]
  constructor
  · rintro (⟨status, buffer, h⟩ | ⟨buffer, h⟩)
    · rw [readBlockCommands, ideRead] at h
      split at h
      · cases h
      · exact ideReadLoop_lba h
    · rw [writeBlockCommands, ideWrite] at h
      split at h
      · cases h
      · exact ideWriteLoop_lba.mp h
  · intro h
    exact .inr ⟨1, ideWriteLoop_lba.mpr h⟩

theorem sectors_pos (hsectors : fs.sectorsPerBlock * q = 2 ^ 28) : 0 < fs.sectorsPerBlock := by
  refine Nat.pos_of_ne_zero fun hzero => ?_
  simp [hzero] at hsectors

/-- The block of the drive that has the sector. -/
theorem physical_eq_mod (hsectors : fs.sectorsPerBlock * q = 2 ^ 28) (block : Nat) : fs.physical block = block % q := by
  have hpos := sectors_pos hsectors
  rw [physical, Nat.mod_mod_of_dvd _ (by decide : 2 ^ 28 ∣ 2 ^ 32), ← hsectors, Nat.mod_mul_right_div_self, Nat.mul_div_cancel _ hpos]

/-- Whatever is sent for a block is in the block of the drive that the number stands for. -/
theorem Ext2.Sends.physical (h : fs.Sends block lba) (hsectors : fs.sectorsPerBlock * q = 2 ^ 28) : lba / fs.sectorsPerBlock = fs.physical block := by
  obtain ⟨k, hk, rfl⟩ := sends_iff.mp h
  have hpos := Nat.zero_lt_of_lt hk
  rw [physical_eq_mod hsectors, ← hsectors, Nat.mod_mul_right_div_self, mul_comm, Nat.mul_add_div hpos, Nat.div_eq_of_lt hk, add_zero]

theorem sectorsApart_iff (hsectors : fs.sectorsPerBlock * q = 2 ^ 28) :
    fs.SectorsApart ↔ fs.superBlock.blocksCount * fs.sectorsPerBlock ≤ 2 ^ 28 := by
  have hpos := sectors_pos hsectors
  rw [← hsectors, mul_comm fs.sectorsPerBlock, Nat.mul_le_mul_right_iff hpos]
  constructor
  · intro h
    by_contra hmore
    have hzero : ∀ b, b % q = 0 → fs.Sends b 0 := by
      intro b hb
      refine sends_iff.mpr ⟨0, hpos, ?_⟩
      rw [Nat.add_zero, ← hsectors, Nat.mul_comm b, Nat.mul_mod_mul_left, hb, Nat.mul_zero]
    have hq : q ≠ 0 := by
      rintro rfl
      cases hsectors
    exact h 0 q (by omega) (by omega) hq.symm 0 ⟨hzero 0 (Nat.zero_mod q), hzero q (Nat.mod_self q)⟩
  · rintro hle a b ha hb hne lba ⟨hsa, hsb⟩
    have hphysical := (hsa.physical hsectors).symm.trans (hsb.physical hsectors)
    rw [physical_eq_mod hsectors, physical_eq_mod hsectors, Nat.mod_eq_of_lt (by omega), Nat.mod_eq_of_lt (by omega)] at hphysical
    exact hne hphysical

/-! ## Volumes that `ext2_init` accepts -/

/-- A block has a power of two of sectors. -/
theorem mounted_sectors (h : fs.ext2Init raw = .ok (fs', root)) : ∃ q, fs'.sectorsPerBlock * q = 2 ^ 28 := by
  have hm := ext2Init_mounted h
  have hsize := fs.superBlock.blockSize_pos
  have hlog := hsize.1.mp hm.blockSize
  have hblock := hm.mount.blockSize.trans (hsize.2 hm.blockSize)
  have hsectors : fs'.sectorsPerBlock = 2 ^ (fs.superBlock.logBlockSize % 32 + 1) := by
    rw [sectorsPerBlock, hblock, ataSectorSize, Nat.pow_succ]
    omega
  refine ⟨2 ^ (27 - fs.superBlock.logBlockSize % 32), ?_⟩
  rw [hsectors, ← Nat.pow_add]
  congr 1
  omega

/-- The blocks of a volume that `ext2_init` accepts have sectors of their own exactly when the volume has at most `2 ^ 28` sectors. -/
theorem block_sectors_iff {raw root : FsNode} (h : fs.ext2Init raw = .ok (fs', root)) :
    fs'.SectorsApart ↔ fs'.superBlock.blocksCount * fs'.sectorsPerBlock ≤ 2 ^ 28 := by
  obtain ⟨q, hsectors⟩ := mounted_sectors h
  exact sectorsApart_iff hsectors

/-- Sixteen blocks of two sectors. -/
theorem block_sectors_small : ∃ fs' root, (unmounted ⟨8, 16, 0, 16, 8, 0xEF53, 128⟩).ext2Init emptyNode = .ok (fs', root) ∧ fs'.SectorsApart := by
  refine exists_ok_pair (by decide) fun fs' root hinit => (block_sectors_iff hinit).mpr ?_
  have hm := (ext2Init_mounted hinit).mount
  rw [sectorsPerBlock, hm.superBlock, hm.blockSize]
  decide

/-- A volume of `2 ^ 27 + 1` blocks of two sectors is accepted. A write of its last block goes to sector 0 of the drive, and so does one
of block 0. -/
theorem block_sectors_wrap : ∃ fs' root, (unmounted ⟨8, 2 ^ 27 + 1, 0, 2 ^ 27 + 1, 8, 0xEF53, 128⟩).ext2Init emptyNode = .ok (fs', root) ∧
    fs'.Sends 0 0 ∧ fs'.Sends (2 ^ 27) 0 ∧ ¬ fs'.SectorsApart := by
  refine exists_ok_pair (by decide) fun fs' root hinit => ?_
  have hm := (ext2Init_mounted hinit).mount
  have hsectors : fs'.sectorsPerBlock = 2 := by
    rw [sectorsPerBlock, hm.blockSize]
    rfl
  have hfirst : fs'.Sends 0 0 := sends_iff.mpr ⟨0, by omega, by omega⟩
  have hlast : fs'.Sends (2 ^ 27) 0 := sends_iff.mpr ⟨0, by omega, by rw [hsectors]; rfl⟩
  have hcount : fs'.superBlock.blocksCount = 2 ^ 27 + 1 := congrArg SuperBlock.blocksCount hm.superBlock
  exact ⟨hfirst, hlast, fun h => h 0 (2 ^ 27) (by omega) (by omega) (by decide) 0 ⟨hfirst, hlast⟩⟩

end OmegaOS
