import OmegaOS.Ext2

/-!
# The commands of the drive

`dev/storage/ide.c`: what `ide_read` and `ide_write` send to the drive, without the data. The loops that wait until the drive is not busy
have been left when a status is read.
-/

namespace OmegaOS

/-- The registers that have the address of a command. -/
structure AddressRegisters where
  hddevsel : BitVec 8
  lba0 : BitVec 8
  lba1 : BitVec 8
  lba2 : BitVec 8
deriving DecidableEq, Repr

/-- The `outb`s of a sector to the registers. -/
def addressRegisters (sector : BitVec 32) : AddressRegisters where
  hddevsel := (0xE0 ||| 0 <<< 4 ||| (sector &&& 0x0F000000) >>> 24).setWidth 8
  lba0 := ((sector &&& 0x000000FF) >>> 0).setWidth 8
  lba1 := ((sector &&& 0x0000FF00) >>> 8).setWidth 8
  lba2 := ((sector &&& 0x00FF0000) >>> 16).setWidth 8

/-- The address that the drive reads from its registers. The highest four bits are in the register that selects the drive. -/
def AddressRegisters.lba (regs : AddressRegisters) : Nat :=
  regs.lba0.toNat + regs.lba1.toNat * 2 ^ 8 + regs.lba2.toNat * 2 ^ 16 + regs.hddevsel.toNat % 2 ^ 4 * 2 ^ 24

/-- The commands of the driver: the transfer of one sector, and the flush, which has no address. -/
inductive IdeCommand where
  | readPio (regs : AddressRegisters)
  | writePio (regs : AddressRegisters)
  | cacheFlush
deriving DecidableEq, Repr

/-- The address of a command. -/
def IdeCommand.lba? : IdeCommand → Option Nat
  | .readPio regs => some regs.lba
  | .writePio regs => some regs.lba
  | .cacheFlush => none

/-- `ataWait(1)`, by the status: `ATA_SR_ERR`, `ATA_SR_DF`, `ATA_SR_DRQ`. -/
def ataWaitFails (status : BitVec 8) : Bool := status &&& 0x01 != 0 || status &&& 0x20 != 0 || status &&& 0x08 == 0

/-- The loop of `ide_read` from round `i` on, with the rounds that are left; `status i` is the status after command `i`. -/
def ideReadLoop (status : Nat → BitVec 8) : BitVec 32 → Nat → Nat → Bool × List IdeCommand
  | _, _, 0 => (true, [])
  | sector, i, left + 1 =>
    let command := .readPio (addressRegisters sector)
    if ataWaitFails (status i) then (false, [command])
    else
      let (result, commands) := ideReadLoop status (sector + 1) (i + 1) left
      (result, command :: commands)

/-- `ide_read`. -/
def ideRead (status : Nat → BitVec 8) (sector : BitVec 32) (buffer count : Nat) : Bool × List IdeCommand :=
  if buffer = null then (false, []) else ideReadLoop status sector 0 count

/-- The loop of `ide_write` with the rounds that are left. -/
def ideWriteLoop : BitVec 32 → Nat → List IdeCommand
  | _, 0 => []
  | sector, left + 1 => .writePio (addressRegisters sector) :: .cacheFlush :: ideWriteLoop (sector + 1) left

/-- `ide_write`. -/
def ideWrite (sector : BitVec 32) (buffer count : Nat) : Bool × List IdeCommand :=
  if buffer = null then (false, []) else (true, ideWriteLoop sector count)

namespace Ext2

/-- `b2s(block)`. -/
def b2s (fs : Ext2) (block : Nat) : BitVec 32 := .ofNat 32 (block * fs.sectorsPerBlock)

/-- The commands of `readBlock(block, buffer)`. -/
def readBlockCommands (fs : Ext2) (status : Nat → BitVec 8) (block buffer : Nat) : List IdeCommand :=
  (ideRead status (fs.b2s block) buffer fs.sectorsPerBlock).2

/-- The commands of `writeBlock(block, buffer)`. -/
def writeBlockCommands (fs : Ext2) (block buffer : Nat) : List IdeCommand := (ideWrite (fs.b2s block) buffer fs.sectorsPerBlock).2

end Ext2

end OmegaOS
