import OmegaOS.Pmm

/-!
# Page tables

`mem/vmm.c`. Physical memory is identity mapped, so a page table is named by the address of its
frame; only its entries are modelled. Every table address in use is a multiple of the page size, so two tables do not overlap.
-/

namespace OmegaOS

open Function

/-- A 64-bit value: an entry, an address or an index. -/
abbrev PageWord := BitVec 64

/-- Physical memory, as far as page tables go. -/
structure Paging where
  pm : Pmm
  /-- The entries of the table at an address. -/
  tables : Nat → PageWord → PageWord

/-! ## Entries -/

/-- `ADDRESS_MASK`. -/
def addressMask : PageWord := 0x000FFFFFFFFFF000

/-- `PA_PRESENT`. -/
def paPresent : PageWord := 1

/-- `PA_READ_WRITE`, `PA_SUPERVISOR`. -/
def paReadWrite : PageWord := 2

@[inherit_doc paReadWrite] def paSupervisor : PageWord := 4

/-- `VMM_KERNEL_ATTRIBUTES`, `VMM_USER_ATTRIBUTES`. -/
def vmmKernelAttributes : PageWord := paPresent ||| paReadWrite

@[inherit_doc vmmKernelAttributes] def vmmUserAttributes : PageWord := paPresent ||| paReadWrite ||| paSupervisor

/-- The bit `attr.present`. -/
def entryPresent (raw : PageWord) : Bool := raw.getLsbD 0

/-- `attr.address << 12`. The field has 40 bits and so has, with this compiler, the result of the shift. -/
def entryAddress (raw : PageWord) : Nat := ((raw.extractLsb' 12 40) <<< 12).toNat

/-- `setEntry`. The last line is the assignment to the field. -/
def setEntry (raw addr attr : PageWord) : PageWord :=
  let raw := raw &&& addressMask
  let raw := raw ||| (attr &&& ~~~addressMask)
  (raw &&& ~~~addressMask) ||| ((addr &&& 0x000000FFFFFFFFFF) <<< 12)

/-- Writing an entry. -/
def Paging.setAt (pg : Paging) (table : Nat) (index raw : PageWord) : Paging :=
  { pg with tables := update pg.tables table (update (pg.tables table) index raw) }

/-- `createEntry`: a new table, cleared, and the entry for it. -/
def createEntry (pg : Paging) (pt : Nat) (index attr : PageWord) : Except Halt (Nat × Paging) := do
  let (newPT, pm) := pmmGetFrame pg.pm
  assert (newPT != null) "newPT"
  let pg : Paging := { pm := pm, tables := update pg.tables newPT fun _ => 0 }
  return (newPT, pg.setAt pt index (setEntry (pg.tables pt index) (BitVec.ofNat 64 newPT >>> 12) attr))

/-! ## Indices -/

def pml4Index (virt : PageWord) : PageWord := (virt >>> 39) &&& 0x1FF

def pdpIndex (virt : PageWord) : PageWord := (virt >>> 30) &&& 0x1FF

def pdIndex (virt : PageWord) : PageWord := (virt >>> 21) &&& 0x1FF

def ptIndex (virt : PageWord) : PageWord := (virt >>> 12) &&& 0x1FF

/-! ## Operations -/

/-- What an entry holds, when it is present. -/
def Paging.entry (pg : Paging) (table : Nat) (index : PageWord) : Option Nat :=
  if entryPresent (pg.tables table index) then some (entryAddress (pg.tables table index)) else none

/-- The last-level table of an address, when it is there: the three checks that `virt2phys` and `vmm_unmapPage` make. -/
def Paging.findPt (pg : Paging) (pml4 : Nat) (virt : PageWord) : Option Nat := do
  let pdp ← pg.entry pml4 (pml4Index virt)
  let pd ← pg.entry pdp (pdpIndex virt)
  pg.entry pd (pdIndex virt)

/-- `virt2phys`, with `none` for the returns of `NULL`. -/
def translate (pg : Paging) (pml4 : Nat) (virt : PageWord) : Option Nat := do
  let pt ← pg.findPt pml4 virt
  pg.entry pt (ptIndex virt)

/-- `virt2phys`. -/
def virt2phys (pg : Paging) (pml4 : Nat) (virt : PageWord) : Nat := (translate pg pml4 virt).getD null

/-- The next table on the way down: the one the entry holds, or a new one. -/
def nextTable (pg : Paging) (table : Nat) (index attr : PageWord) : Except Halt (Nat × Paging) :=
  if !entryPresent (pg.tables table index) then createEntry pg table index attr
  else .ok (entryAddress (pg.tables table index), pg)

/-- `vmm_mapPage`. -/
def vmmMapPage (pg : Paging) (pml4 : Nat) (phys virt attr : PageWord) : Except Halt Paging := do
  let uvirt := BitVec.ofNat 64 (rndwn virt.toNat pageSize)
  let (pdp, pg) ← nextTable pg pml4 (pml4Index uvirt) attr
  let (pd, pg) ← nextTable pg pdp (pdpIndex uvirt) attr
  let (pt, pg) ← nextTable pg pd (pdIndex uvirt) attr
  return pg.setAt pt (ptIndex uvirt) (setEntry (pg.tables pt (ptIndex uvirt)) (phys >>> 12) attr)

/-- `vmm_unmapPage`: the page's frame, or `NULL`. -/
def vmmUnmapPage (pg : Paging) (pml4 : Nat) (virt : PageWord) : Except Halt (Nat × Paging) :=
  match pg.findPt pml4 virt with
  | none => .ok (null, pg)
  | some pt =>
    let raw := pg.tables pt (ptIndex virt)
    if !entryPresent raw then .ok (null, pg)
    else do
      let pg := pg.setAt pt (ptIndex virt) (raw &&& ~~~paPresent)
      let phys := entryAddress raw
      let pm ← pmmReleaseFrame pg.pm phys
      return (phys, { pg with pm := pm })

/-- `vmm_identityMapPage`. -/
def vmmIdentityMapPage (pg : Paging) (pml4 : Nat) (phys attr : PageWord) : Except Halt Paging := vmmMapPage pg pml4 phys phys attr

/-! ## New pages

The results are the address of the frame, or `NULL`, and the memory. The translation cache is not modelled. -/

/-- `vmm_createPage`. -/
def vmmCreatePage (pg : Paging) (pml4 : Nat) (virt attr : PageWord) : Except Halt (Nat × Paging) := do
  let (frame, pm) := pmmGetFrame pg.pm
  let pg := { pg with pm := pm }
  if frame = null then
    return (null, pg)
  let pg ← vmmMapPage pg pml4 (BitVec.ofNat 64 frame) virt attr
  return (frame, pg)

/-- The loop of `vmm_createPages` from page `i` on, for as many pages; `addr` is the last frame. -/
def createPagesFrom (pg : Paging) (pml4 : Nat) (virt attr : PageWord) (i addr : Nat) : Nat → Except Halt (Nat × Paging)
  | 0 => .ok (addr, pg)
  | pages + 1 => do
    let (addr, pg) ← vmmCreatePage pg pml4 (virt + BitVec.ofNat 64 (i * pageSize)) attr
    if addr = null then
      return (null, pg)
    createPagesFrom pg pml4 virt attr (i + 1) addr pages

/-- `vmm_createPages`. -/
def vmmCreatePages (pg : Paging) (pml4 : Nat) (virt : PageWord) (pages : Nat) (attr : PageWord) : Except Halt (Nat × Paging) :=
  createPagesFrom pg pml4 virt attr 0 null pages

/-- `vmm_createIdentityPage`. -/
def vmmCreateIdentityPage (pg : Paging) (pml4 : Nat) (attr : PageWord) : Except Halt (Nat × Paging) := do
  let (frame, pm) := pmmGetFrame pg.pm
  let pg := { pg with pm := pm }
  if frame = null then
    return (null, pg)
  let pg ← vmmIdentityMapPage pg pml4 (BitVec.ofNat 64 frame) attr
  return (frame, pg)

/-- The loop of `vmm_createIdentityPages`. -/
def identityMapPages (pg : Paging) (pml4 frame : Nat) (attr : PageWord) (is : List Nat) : Except Halt Paging :=
  is.foldlM (fun pg i => vmmIdentityMapPage pg pml4 (BitVec.ofNat 64 (frame + i * pageSize)) attr) pg

/-- `vmm_createIdentityPages`. -/
def vmmCreateIdentityPages (pg : Paging) (pml4 pages : Nat) (attr : PageWord) : Except Halt (Nat × Paging) := do
  let (frame, pm) := pmmGetFrames pg.pm pages
  let pg := { pg with pm := pm }
  if frame = null then
    return (null, pg)
  let pg ← identityMapPages pg pml4 frame attr (List.range pages)
  return (frame, pg)

/-- `vmm_createAddressSpace`: a new root with the entries of the parent's. -/
def vmmCreateAddressSpace (pg : Paging) (parent : Nat) : Except Halt (Nat × Paging) := do
  let (pml4, pg) ← vmmCreateIdentityPage pg parent vmmUserAttributes
  if pml4 = null then
    return (null, pg)
  return (pml4, { pg with tables := update pg.tables pml4 (pg.tables parent) })

/-! ## Initialization -/

/-- `_KernelStart`, `_KernelEnd`, `_KernelWritableStart`, `_KernelWritableEnd`. -/
structure KernelSymbols where
  kernelStart : Nat
  kernelEnd : Nat
  kernelWritableStart : Nat
  kernelWritableEnd : Nat

/-- The addresses of a loop of `vmm_init`, from `start` up to `stop` by pages. Both are multiples of the page size there, so that the
last step of the loop does not pass the end of a word. -/
def pageAddresses (start stop : Nat) : List Nat := (List.range ((stop - start) / pageSize)).map fun i => start + i * pageSize

/-- A loop of `vmm_init`, with the attributes for each address. -/
def identityMapRange (pg : Paging) (pml4 start stop : Nat) (attr : Nat → PageWord) : Except Halt Paging :=
  (pageAddresses start stop).foldlM (fun pg addr => vmmIdentityMapPage pg pml4 (BitVec.ofNat 64 addr) (attr addr)) pg

/-- `vmm_init`, as far as it makes tables: the result is `_KernelPML4`, and the memory. -/
def vmmInit (pg : Paging) (memorySize : Nat) (k : KernelSymbols) (baseAddress bufferSize : Nat) : Except Halt (Nat × Paging) := do
  let (pml4, pm) := pmmGetFrame pg.pm
  assert (pml4 != null) "_KernelPML4 = (PageTable_t *)pmm_getFrame()"
  let pg : Paging := { pm := pm, tables := update pg.tables pml4 fun _ => 0 }
  let memEnd := rndup memorySize pageSize
  let pg ← identityMapRange pg pml4 0 memEnd fun _ => vmmKernelAttributes
  let krnStart := rndwn k.kernelStart pageSize
  let krnEnd := rndup k.kernelEnd pageSize
  let krnWritableStart := rndwn k.kernelWritableStart pageSize
  let krnWritableEnd := rndup k.kernelWritableEnd pageSize
  let pg ← identityMapRange pg pml4 krnStart krnEnd fun addr =>
    if krnWritableStart ≤ addr ∧ addr ≤ krnWritableEnd then vmmUserAttributes else paPresent ||| paSupervisor
  let fbBase := rndwn baseAddress pageSize
  let fbEnd := rndup ((fbBase + bufferSize) % 2 ^ 64) pageSize
  let pg ← identityMapRange pg pml4 fbBase fbEnd fun _ => vmmKernelAttributes
  return (pml4, pg)

end OmegaOS
