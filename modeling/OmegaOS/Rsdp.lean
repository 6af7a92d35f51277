import OmegaOS.Madt

/-!
# The root of the ACPI tables

`arch/rsdp.c` on byte-addressed memory. The identity mappings and the log are left out. A result comes with the numbers of the entries of
the root table that were read for it.
-/

namespace OmegaOS

/-- A `uint64_t` at an address. -/
def Bytes.read64 (m : Bytes) (a : Nat) : Nat := m.read32 a + m.read32 (a + 4) * 2 ^ 32

/-- `validateTable`. -/
def validateTable (m : Bytes) (ptr count : Nat) : Bool := (List.range count).foldl (fun sum i => sum + m (ptr + i)) 0 == 0

/-- `strncmp(s1, name, n) == 0`, from `s1` and `name[i]` on: this `strncmp` does not stop at the end of a string. -/
def sameChars (m : Bytes) (s1 : Nat) (name : Nat → UInt8) (i : Nat) : Nat → Bool
  | 0 => true
  | n + 1 => if m s1 ≠ name i then false else sameChars m (s1 + 1) name (i + 1) n

/-- `sizeof(RSDTHeader_t)`, where the entries of the root table begin. -/
def rsdtHeaderSize : Nat := 36

/-- `header->length`. -/
def tableLength (m : Bytes) (header : Nat) : Nat := m.read32 (header + 4)

/-- The size of an entry of `RSDT_t` or `XSDT_t`. -/
def entrySize (version : Nat) : Nat := if version = 1 then 4 else 8

/-- `tables[i]`. -/
def tableEntry (m : Bytes) (ptr version i : Nat) : Nat :=
  if version = 1 then m.read32 (ptr + rsdtHeaderSize + i * 4) else m.read64 (ptr + rsdtHeaderSize + i * 8)

/-- `g_rsdt`, `g_version` and `g_tables`. -/
structure Rsdt where
  rsdt : Nat
  version : Nat
  tables : Nat
deriving DecidableEq, Repr

/-- What `rsdt_init` assigns to `g_tables`. `header` is a pointer there, and `sizeof(header)` is 8. -/
def rsdtTables (m : Bytes) (ptr version : Nat) : Nat :=
  let tables := (tableLength m ptr + (2 ^ 64 - 8)) % 2 ^ 64 / 4
  if version = 2 then tables / 2 else tables

/-- The loop of `rsdt_init` over the entries. -/
def rsdtInitLoop (m : Bytes) (ptr version : Nat) : List Nat → List Nat × Except Halt Unit
  | [] => ([], .ok ())
  | i :: is =>
    let header := tableEntry m ptr version i
    if validateTable m header (tableLength m header) then
      let (read, result) := rsdtInitLoop m ptr version is
      (i :: read, result)
    else ([i], .error (.assertion "validateTable(header, header->length)"))

/-- `rsdt_init`. -/
def rsdtInit (m : Bytes) (ptr version : Nat) : List Nat × Except Halt Rsdt :=
  if validateTable m ptr (tableLength m ptr) then
    let tables := rsdtTables m ptr version
    let (read, result) := rsdtInitLoop m ptr version (List.range tables)
    (read, result.map fun _ => ⟨ptr, version, tables⟩)
  else ([], .error (.assertion "validateTable(g_rsdt, ((RSDT_t *)ptr)->header.length)"))

/-- The loop of `rsdt_findTable` over the entries. -/
def findTableLoop (m : Bytes) (g : Rsdt) (name : Nat → UInt8) : List Nat → List Nat × Nat
  | [] => ([], null)
  | i :: is =>
    let header := tableEntry m g.rsdt g.version i
    if sameChars m header name 0 4 then ([i], header)
    else
      let (read, result) := findTableLoop m g name is
      (i :: read, result)

/-- `rsdt_findTable`. -/
def rsdtFindTable (m : Bytes) (g : Rsdt) (name : Nat → UInt8) : List Nat × Nat := findTableLoop m g name (List.range g.tables)

end OmegaOS
