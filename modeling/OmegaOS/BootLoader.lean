import OmegaOS.Lib.Splice
import OmegaOS.Rsdp

/-!
# The boot loader

`efi_main` of `bootloader/main.c` up to the end of the loop that loads the kernel, on a file and a memory by bytes. `SetPosition` and
`Read` succeed. `AllocatePages` is a function of the firmware, of which only what `AllocatePages` lists is known; the loader does not look at
its status.
-/

namespace OmegaOS

open Splice

/-! ## The headers of the file -/

/-- `validateElfHeader`: `ELFMAG`, `ELFCLASS64`, `ELFDATA2LSB`, `ET_EXEC`, `EM_X86_64`, `EV_CURRENT`. -/
def validateElfHeader (hdr : Bytes) : Bool :=
  hdr 0 == 0x7F && hdr 1 == 0x45 && hdr 2 == 0x4C && hdr 3 == 0x46 && hdr 4 == 2 && hdr 5 == 1 && hdr.read16 16 == 2 && hdr.read16 18 == 62 &&
    hdr.read32 20 == 1

/-- `header.e_phoff`. -/
def ePhoff (file : Bytes) : Nat := file.read64 32

/-- `header.e_phentsize`. -/
def ePhentsize (file : Bytes) : Nat := file.read16 54

/-- `header.e_phnum`. -/
def ePhnum (file : Bytes) : Nat := file.read16 56

/-- The fields of `Elf64_Phdr` that the loader reads. -/
structure Phdr where
  type : Nat
  offset : Nat
  paddr : Nat
  filesz : Nat
  memsz : Nat
deriving DecidableEq, Repr

/-- `PT_LOAD`. -/
def ptLoad : Nat := 1

/-- The program header at a distance from the first one. They are read from the file. -/
def phdrAt (file : Bytes) (distance : Nat) : Phdr :=
  let phdr := ePhoff file + distance
  ⟨file.read32 phdr, file.read64 (phdr + 8), file.read64 (phdr + 24), file.read64 (phdr + 32), file.read64 (phdr + 40)⟩

/-! ## Loading -/

/-- The memory, and the pages that the loader was given. -/
structure Loader where
  memory : Bytes
  allocated : Nat → Bool

/-- `int pages`, as it is passed to `AllocatePages`. -/
def segmentPages (memsz : Nat) : Nat := ((BitVec.ofNat 32 ((memsz + (pageSize - 1)) % 2 ^ 64 / pageSize)).signExtend 64).toNat

/-- A request that the firmware meets: the address begins a page, and all pages are free and not the loader's yet. -/
def pagesFree (free allocated : Nat → Bool) (address pages : Nat) : Prop :=
  address % pageSize = 0 ∧ address / pageSize + pages ≤ 2 ^ 52 ∧
    ∀ p < pages, free (address / pageSize + p) = true ∧ allocated (address / pageSize + p) = false

instance (free allocated : Nat → Bool) (address pages : Nat) : Decidable (pagesFree free allocated address pages) :=
  inferInstanceAs (Decidable (_ ∧ _))

/-- The page is one of those that a request asks for. -/
def Asked (address pages p : Nat) : Prop := address / pageSize ≤ p ∧ p < address / pageSize + pages

instance (address pages p : Nat) : Decidable (Asked address pages p) := inferInstanceAs (Decidable (_ ∧ _))

/-- `AllocatePages(AllocateAddress, EfiLoaderData, pages, &address)` of a firmware with these free pages: the state and `address` after the
call. The fields are all that is known of it; they do not say what new pages hold. -/
structure AllocatePages (free : Nat → Bool) where
  call : Loader → Nat → Nat → Loader × Nat
  /-- `address` stays as it is. -/
  address : ∀ st address pages, (call st address pages).2 = address
  /-- All pages are given, or none. -/
  allocated : ∀ st address pages p, (call st address pages).1.allocated p = true ↔
    pagesFree free st.allocated address pages ∧ Asked address pages p ∨ st.allocated p = true
  /-- The memory outside of new pages stays as it is. -/
  memory : ∀ st address pages a, (call st address pages).1.allocated (a / pageSize) = st.allocated (a / pageSize) →
    (call st address pages).1.memory a = st.memory a

variable {free : Nat → Bool} (service : AllocatePages free) (file : Bytes)

/-- The `switch` of the loop, at a program header. -/
def loadSegment (st : Loader) (phdr : Phdr) : Loader :=
  if phdr.type = ptLoad then
    let (st, segment) := service.call st phdr.paddr (segmentPages phdr.memsz)
    { st with memory := splice st.memory (fun k => file (phdr.offset + k)) segment phdr.filesz }
  else st

/-- `header.e_phnum * header.e_phentsize`, an `int`. -/
def headersSize : Int := (BitVec.ofNat 32 (ePhnum file * ePhentsize file)).toInt

/-- The loop over the program headers, with the distance of `phdr` from `headers`. -/
def loadLoop : Nat → Nat → Loader → Except Halt Loader
  | 0, _, _ => .error .spin
  | fuel + 1, phdr, st =>
    if (phdr : Int) < headersSize file then
      loadLoop fuel (phdr + ePhentsize file) (loadSegment service file st (phdrAt file phdr))
    else .ok st

/-- `efi_main` up to the end of the loop; `none` when it returns `EFI_INCOMPATIBLE_VERSION`. -/
def loadKernel (fuel : Nat) (st : Loader) : Except Halt (Option Loader) :=
  if !validateElfHeader file then .ok none else (loadLoop service file fuel 0 st).map some

end OmegaOS
