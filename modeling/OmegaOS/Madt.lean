import OmegaOS.Common

/-!
# The tables of the interrupt controllers

`arch/apic/madt.c` and `arch/apic/ioapic.c`. The table is in byte-addressed memory, at `madt`, which is what `rsdt_findTable` returns. The
identity mappings of the registers and the log are left out.
-/

namespace OmegaOS

open Function

/-- Memory by bytes. -/
abbrev Bytes := Nat → UInt8

/-- A `uint32_t` at an address. -/
def Bytes.read32 (m : Bytes) (a : Nat) : Nat :=
  (m a).toNat + (m (a + 1)).toNat * 2 ^ 8 + (m (a + 2)).toNat * 2 ^ 16 + (m (a + 3)).toNat * 2 ^ 24

/-- A `uint16_t` at an address. -/
def Bytes.read16 (m : Bytes) (a : Nat) : Nat := (m a).toNat + (m (a + 1)).toNat * 2 ^ 8

theorem Bytes.read16_lt (m : Bytes) (a : Nat) : m.read16 a < 2 ^ 16 := by
  have hlow := (m a).toNat_lt
  have hhigh := (m (a + 1)).toNat_lt
  rw [Bytes.read16]
  omega

/-- An assignment to a `uint16_t` at an address. -/
def Bytes.write16 (m : Bytes) (a v : Nat) : Bytes := update (update m a (.ofNat v)) (a + 1) (.ofNat (v / 2 ^ 8))

/-- Why a function does not return: it halts, or it writes outside an array. -/
inductive Fault where
  | halt (h : Halt)
  | outOfBounds
deriving DecidableEq, Repr

def maxCores : Nat := 256

def maxIoApic : Nat := 8

def maxIoApicRedirects : Nat := 16

/-- `MADTInfo_t`. The counts are the lengths of the lists. -/
@[ext]
structure MadtInfo where
  coreIDs : List UInt8
  ioapics : List Nat
  ioapicInterruptOverride : List Nat
  lapic : Nat
deriving DecidableEq, Repr

/-- `array[count++] = v`. -/
def storeEntry {α : Type} (size : Nat) (array : List α) (v : α) : Except Fault (List α) :=
  if array.length < size then .ok (array ++ [v]) else .error .outOfBounds

/-- The `switch` of `madt_init`, at the entry `ptr`. -/
def madtEntry (m : Bytes) (info : MadtInfo) (ptr : Nat) : Except Fault MadtInfo :=
  if m ptr = 0 then
    if m (ptr + 4) &&& 1 ≠ 0 then do
      let coreIDs ← storeEntry maxCores info.coreIDs (m (ptr + 3))
      return { info with coreIDs }
    else .ok info
  else if m ptr = 1 then do
    let ioapics ← storeEntry maxIoApic info.ioapics (ptr + 2)
    return { info with ioapics }
  else if m ptr = 2 then do
    let ioapicInterruptOverride ← storeEntry maxIoApicRedirects info.ioapicInterruptOverride (ptr + 2)
    return { info with ioapicInterruptOverride }
  else if m ptr = 5 then .ok { info with lapic := ptr + 4 }
  else .ok info

/-- The loop of `madt_init` from `ptr` on. -/
def madtLoop (m : Bytes) (stop : Nat) : Nat → Nat → MadtInfo → Except Fault MadtInfo
  | 0, _, _ => .error (.halt .spin)
  | fuel + 1, ptr, info =>
    if ptr < stop then do
      let info ← madtEntry m info ptr
      madtLoop m stop fuel (ptr + (m (ptr + 1)).toNat) info
    else .ok info

/-- The end of the table. -/
def madtEnd (m : Bytes) (madt : Nat) : Nat := madt + m.read32 (madt + 4)

/-- `madt_init`. -/
def madtInit (m : Bytes) (madt fuel : Nat) : Except Fault MadtInfo :=
  if madt = null then .error (.halt (.assertion "madt"))
  else madtLoop m (madtEnd m madt) fuel (madt + 44) ⟨[], [], [], m.read32 (madt + 36)⟩

/-! ## The I/O APICs -/

/-- The registers of the I/O APICs, by base address and offset. -/
abbrev IoApicRegs := Nat → Nat → Nat

/-- `writeRegister`. A register holds what is written to it. -/
def writeRegister (r : IoApicRegs) (base offset value : Nat) : IoApicRegs :=
  update r base (update (r base) offset value)

def ioApicIdReg : Nat := 0

def ioApicVerReg : Nat := 1

/-- `IOREDTBL0 + index * 2`, which is passed as a `uint8_t`. -/
def redirection (index : Nat) : Nat := (0x10 + index * 2) % 2 ^ 8

/-- `maskInterrupt`. -/
def maskInterrupt (r : IoApicRegs) (base index : Nat) : Except Fault IoApicRegs :=
  let raw := r base (redirection index) ||| 2 ^ 16
  let r := writeRegister r base (redirection index) raw
  if r base (redirection index) = raw then .ok r else .error (.halt (.assertion "new == (uint32_t)entry.raw"))

/-- The version register's number of interrupts. -/
def interruptCount (iovred : Nat) : Nat := (iovred >>> 16 &&& 0xFF) + 1

/-- `ioapic->id`. -/
def ioapicId (m : Bytes) (ioapic : Nat) : Nat := (m ioapic).toNat

/-- `ioapic->address`. -/
def ioapicAddress (m : Bytes) (ioapic : Nat) : Nat := m.read32 (ioapic + 2)

/-- A round of the first loop of `ioapic_init`. `maxInterrupts` is the field at offset 10. -/
def ioapicRound (s : Bytes × IoApicRegs) (ioapic : Nat) : Except Fault (Bytes × IoApicRegs) :=
  let (m, r) := s
  let id := r (ioapicAddress m ioapic) ioApicIdReg >>> 24 &&& 0xF0
  if ioapicId m ioapic = id then do
    let m := m.write16 (ioapic + 10) (interruptCount (r (ioapicAddress m ioapic) ioApicVerReg))
    let r ← (List.range (m.read16 (ioapic + 10))).foldlM (fun r j => maskInterrupt r (ioapicAddress m ioapic) j) r
    return (m, r)
  else .error (.halt (.assertion "ioapic->id == id"))

/-- `ioapic_init`. -/
def ioapicInit (apicInitialized : Bool) (info : MadtInfo) (m : Bytes) (r : IoApicRegs) : Except Fault (Bytes × IoApicRegs) :=
  if apicInitialized then info.ioapics.foldlM ioapicRound (m, r) else .ok (m, r)

/-! ## Mapping an interrupt -/

/-- `IoApicRedirectionEntry_t`. -/
structure IoApicRedirectionEntry where
  vector : BitVec 8
  delvMode : BitVec 3
  destMode : BitVec 1
  delvStatus : BitVec 1
  pinPolarity : BitVec 1
  remoteIRR : BitVec 1
  triggerMode : BitVec 1
  mask : BitVec 1
  reserved : BitVec 39
  destination : BitVec 8
deriving DecidableEq, Repr

/-- `entry.raw`. The first field has the lowest bits. -/
def IoApicRedirectionEntry.raw (entry : IoApicRedirectionEntry) : BitVec 64 :=
  entry.destination ++ entry.reserved ++ entry.mask ++ entry.triggerMode ++ entry.remoteIRR ++ entry.pinPolarity ++ entry.delvStatus ++
    entry.destMode ++ entry.delvMode ++ entry.vector

/-- `IOREDTBL0 + index * 2 + 1`, which is passed as a `uint8_t`. -/
def redirectionHigh (index : Nat) : Nat := (0x10 + index * 2 + 1) % 2 ^ 8

/-- `writeRedirectionEntry`. -/
def writeRedirectionEntry (r : IoApicRegs) (base index : Nat) (raw : BitVec 64) : IoApicRegs :=
  let r := writeRegister r base (redirection index) (raw.setWidth 32).toNat
  writeRegister r base (redirectionHigh index) ((raw >>> 32).setWidth 32).toNat

/-- `ioapic->gsib`. -/
def ioapicGsib (m : Bytes) (ioapic : Nat) : Nat := m.read32 (ioapic + 6)

/-- `ioapic->maxInterrupts`. -/
def ioapicMaxInterrupts (m : Bytes) (ioapic : Nat) : Nat := m.read16 (ioapic + 10)

/-- `getIoApicByInterrupt`. The sum is a `uint32_t`. -/
def getIoApicByInterrupt (m : Bytes) (info : MadtInfo) (irq : BitVec 8) : Option Nat :=
  info.ioapics.find? fun ioapic =>
    ioapicGsib m ioapic ≤ irq.toNat ∧ irq.toNat ≤ (ioapicGsib m ioapic + ioapicMaxInterrupts m ioapic) % 2 ^ 32

/-- The entry of `ioapic_map_irq`. `destination` has eight bits of `_BspID`. -/
def mappedEntry (bspID : BitVec 32) (vector : BitVec 8) (logical : Bool) : IoApicRedirectionEntry :=
  { vector, delvMode := 0, destMode := if logical then 1 else 0, delvStatus := 0, pinPolarity := 0, remoteIRR := 0, triggerMode := 0,
    mask := 0, reserved := 0, destination := if logical then 0xFF else bspID.setWidth 8 }

/-- `ioapic_map_irq`. -/
def ioapicMapIrq (m : Bytes) (info : MadtInfo) (bspID : BitVec 32) (r : IoApicRegs) (ioredtbl vector : BitVec 8) (logical : Bool) :
    Except Fault IoApicRegs :=
  match getIoApicByInterrupt m info ioredtbl with
  | none => .error (.halt (.assertion "ioapic"))
  | some ioapic => .ok (writeRedirectionEntry r (ioapicAddress m ioapic) ioredtbl.toNat (mappedEntry bspID vector logical).raw)

end OmegaOS
