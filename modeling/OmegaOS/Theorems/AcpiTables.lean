import Mathlib.Data.List.Basic
import OmegaOS.Rsdp

/-!
# The entries of the root table

`rsdt_init` takes the size of a pointer for the size of the header, so that it counts seven entries too many in an RSDT and three in an
XSDT. It reads them all, and so does `rsdt_findTable` for a name that no table has.
-/

namespace OmegaOS

open List

variable {m : Bytes} {ptr version n i : Nat} {name : Nat → UInt8} {g : Rsdt} {is js : List Nat}

/-! ## Tables -/

/-- The signature of a table is the name. -/
def HasSignature (m : Bytes) (table : Nat) (name : Nat → UInt8) : Prop := ∀ k < 4, m (table + k) = name k

instance (m : Bytes) (table : Nat) (name : Nat → UInt8) : Decidable (HasSignature m table name) :=
  inferInstanceAs (Decidable (∀ k < 4, _))

theorem sameChars_iff (m : Bytes) (s1 i n : Nat) : sameChars m s1 name i n = true ↔ ∀ k < n, m (s1 + k) = name (i + k) := by
  induction n generalizing s1 i with
  | zero => simp [sameChars]
  | succ n ih =>
    rw [sameChars]
    split
    · rename_i hne
      refine iff_of_false Bool.false_ne_true fun h => hne ?_
      simpa using h 0 (Nat.succ_pos n)
    · rename_i heq
      rw [ih]
      constructor
      · intro h k hk
        cases k with
        | zero => simpa using heq
        | succ k =>
          have := h k (by omega)
          rwa [add_assoc, add_comm 1 k, add_assoc, add_comm 1 k] at this
      · intro h k hk
        have := h (k + 1) (by omega)
        rwa [add_assoc, add_comm 1 k, add_assoc, add_comm 1 k]

theorem sameChars_signature (m : Bytes) (table : Nat) (name : Nat → UInt8) : sameChars m table name 0 4 = true ↔ HasSignature m table name := by
  simp [sameChars_iff, HasSignature]

/-- A table that begins with its checksum right. -/
def ValidTable (m : Bytes) (table : Nat) : Prop := validateTable m table (tableLength m table) = true

/-- An RSDT or an XSDT with `n` entries. -/
structure RootTable (m : Bytes) (ptr version n : Nat) : Prop where
  kind : version = 1 ∨ version = 2
  length : tableLength m ptr = rsdtHeaderSize + n * entrySize version

/-- `rsdt_init` reads the entries that the table contains, and no others. -/
def InitInside (m : Bytes) (ptr version n : Nat) : Prop := (rsdtInit m ptr version).1 = List.range n

/-- A wrong checksum stops `rsdt_init` at the last entry of the table, or at the table itself if it is empty. -/
def StopsAtEnd (m : Bytes) (ptr version : Nat) : Nat → Prop
  | 0 => ¬ ValidTable m ptr
  | k + 1 => ValidTable m ptr ∧ (∀ i < k, ValidTable m (tableEntry m ptr version i)) ∧ ¬ ValidTable m (tableEntry m ptr version k)

/-- The first table with the name among those of the first `n` entries, `NULL` if there is none. -/
def firstTable (m : Bytes) (g : Rsdt) (n : Nat) (name : Nat → UInt8) : Nat :=
  (((List.range n).find? fun i => HasSignature m (tableEntry m g.rsdt g.version i) name).map (tableEntry m g.rsdt g.version)).getD null

/-- `rsdt_findTable` reads only entries that the table contains, and returns the first table with the name. -/
def FindsInside (m : Bytes) (g : Rsdt) (n : Nat) (name : Nat → UInt8) : Prop :=
  (∀ i ∈ (rsdtFindTable m g name).1, i < n) ∧ (rsdtFindTable m g name).2 = firstTable m g n name

/-! ## How many entries are counted -/

theorem read32_lt (m : Bytes) (a : Nat) : m.read32 a < 2 ^ 32 := by
  have h0 := (m a).toNat_lt
  have h1 := (m (a + 1)).toNat_lt
  have h2 := (m (a + 2)).toNat_lt
  have h3 := (m (a + 3)).toNat_lt
  rw [Bytes.read32]
  omega

/-- The entries that are counted behind the end of the table. -/
def surplus (version : Nat) : Nat := if version = 1 then 7 else 3

theorem surplus_pos (version : Nat) : 0 < surplus version := by
  rw [surplus]
  split <;> omega

theorem RootTable.tables (h : RootTable m ptr version n) : rsdtTables m ptr version = n + surplus version := by
  have hlt := read32_lt m (ptr + 4)
  rw [← tableLength] at hlt
  have hlength := h.length
  rw [rsdtHeaderSize, entrySize] at hlength
  rw [rsdtTables, surplus]
  rcases h.kind with rfl | rfl
  · rw [if_pos rfl] at hlength
    rw [if_neg (by decide), if_pos rfl]
    omega
  · rw [if_neg (by decide)] at hlength
    rw [if_pos rfl, if_neg (by decide)]
    omega

/-- The entries that the loops go through: those of the table, and at least one behind them. -/
theorem range_surplus (n version : Nat) : ∃ more, List.range (n + surplus version) = List.range n ++ n :: more := by
  obtain ⟨s, hs⟩ := Nat.exists_eq_succ_of_ne_zero (Nat.ne_of_gt (surplus_pos version))
  exact ⟨range' (n + 1) s, by rw [hs, range_eq_range', range_eq_range', range'_append_1.symm, Nat.zero_add, range'_succ]⟩

/-! ## The loops -/

theorem rsdtInitLoop_first (m : Bytes) (ptr version i : Nat) (is : List Nat) : ∃ read, (rsdtInitLoop m ptr version (i :: is)).1 = i :: read := by
  rw [rsdtInitLoop]
  split
  · exact ⟨_, rfl⟩
  · exact ⟨[], rfl⟩

/-- With more entries behind `is`, the loop reads just `is` only when the last of them is the first one with a wrong checksum. -/
theorem rsdtInitLoop_reads_iff (hjs : js ≠ []) : (rsdtInitLoop m ptr version (is ++ js)).1 = is ↔
    ∃ before k, is = before ++ [k] ∧ (∀ i ∈ before, ValidTable m (tableEntry m ptr version i)) ∧ ¬ ValidTable m (tableEntry m ptr version k) := by
  induction is with
  | nil =>
    obtain ⟨j, js, rfl⟩ := exists_cons_of_ne_nil hjs
    obtain ⟨read, hread⟩ := rsdtInitLoop_first m ptr version j js
    rw [nil_append, hread]
    simp
  | cons i is ih =>
    rw [cons_append, rsdtInitLoop]
    by_cases hvalid : validateTable m (tableEntry m ptr version i) (tableLength m (tableEntry m ptr version i)) = true
    · rw [if_pos hvalid, cons.injEq, and_iff_right rfl, ih]
      constructor
      · rintro ⟨before, k, rfl, hbefore, hk⟩
        exact ⟨i :: before, k, rfl, forall_mem_cons.mpr ⟨hvalid, hbefore⟩, hk⟩
      · rintro ⟨before, k, hsplit, hbefore, hk⟩
        cases before with
        | nil =>
          obtain ⟨rfl, -⟩ := cons.inj hsplit
          exact absurd hvalid hk
        | cons _ before =>
          obtain ⟨rfl, rfl⟩ := cons.inj hsplit
          exact ⟨before, k, rfl, (forall_mem_cons.mp hbefore).2, hk⟩
    · rw [if_neg hvalid]
      constructor
      · intro heq
        obtain ⟨-, rfl⟩ := cons.inj heq
        exact ⟨[], i, rfl, by simp, hvalid⟩
      · rintro ⟨before, k, hsplit, hbefore, -⟩
        cases before with
        | nil =>
          obtain ⟨-, rfl⟩ := cons.inj hsplit
          rfl
        | cons _ before =>
          obtain ⟨rfl, -⟩ := cons.inj hsplit
          exact absurd (hbefore i mem_cons_self) hvalid

theorem rsdtInitLoop_returned (h : (rsdtInitLoop m ptr version is).2 = .ok u) : (rsdtInitLoop m ptr version is).1 = is := by
  induction is with
  | nil => rfl
  | cons i is ih =>
    rw [rsdtInitLoop] at h ⊢
    by_cases hvalid : validateTable m (tableEntry m ptr version i) (tableLength m (tableEntry m ptr version i)) = true
    · rw [if_pos hvalid] at h ⊢
      exact congrArg (i :: ·) (ih h)
    · simp [if_neg hvalid] at h

/-- Entries of tables with other names are passed. -/
theorem findTableLoop_append (hother : ∀ i ∈ is, ¬ HasSignature m (tableEntry m g.rsdt g.version i) name) :
    findTableLoop m g name (is ++ js) = (is ++ (findTableLoop m g name js).1, (findTableLoop m g name js).2) := by
  induction is with
  | nil => rfl
  | cons i is ih =>
    rw [cons_append, findTableLoop]
    rw [if_neg ((sameChars_signature _ _ _).not.mpr (hother i mem_cons_self)), ih fun k hk => hother k (.tail i hk)]
    rfl

theorem findTableLoop_found (h : HasSignature m (tableEntry m g.rsdt g.version i) name) (is : List Nat) :
    findTableLoop m g name (i :: is) = ([i], tableEntry m g.rsdt g.version i) := by
  rw [findTableLoop]
  exact if_pos ((sameChars_signature _ _ _).mpr h)

theorem findTableLoop_first (m : Bytes) (g : Rsdt) (name : Nat → UInt8) (i : Nat) (is : List Nat) :
    ∃ read, (findTableLoop m g name (i :: is)).1 = i :: read := by
  rw [findTableLoop]
  split
  · exact ⟨[], rfl⟩
  · exact ⟨_, rfl⟩

/-! ## The root table -/

section

variable (h : RootTable m ptr version n)

include h

theorem RootTable.initInside_iff : InitInside m ptr version n ↔ StopsAtEnd m ptr version n := by
  obtain ⟨more, hrange⟩ := range_surplus n version
  rw [InitInside, rsdtInit]
  by_cases hvalid : validateTable m ptr (tableLength m ptr) = true
  · rw [if_pos hvalid]
    dsimp only
    rw [h.tables, hrange, rsdtInitLoop_reads_iff (cons_ne_nil n more)]
    cases n with
    | zero => simp [StopsAtEnd, ValidTable, hvalid]
    | succ k =>
      constructor
      · rintro ⟨before, j, hsplit, hbefore, hj⟩
        rw [range_succ] at hsplit
        obtain ⟨rfl, hlast⟩ := append_inj' hsplit rfl
        obtain ⟨rfl, -⟩ := cons.inj hlast
        exact ⟨hvalid, fun i hi => hbefore i (mem_range.mpr hi), hj⟩
      · rintro ⟨-, hbefore, hk⟩
        exact ⟨range k, k, range_succ, fun i hi => hbefore i (mem_range.mp hi), hk⟩
  · rw [if_neg hvalid]
    cases n with
    | zero => exact iff_of_true rfl hvalid
    | succ k => exact iff_of_false (by simp [range_succ]) fun hstop => hvalid hstop.1

/-- When `rsdt_init` returns, it has counted and read all entries of the table and those behind. -/
theorem RootTable.returned (hinit : (rsdtInit m ptr version).2 = .ok g) :
    g = ⟨ptr, version, n + surplus version⟩ ∧ (rsdtInit m ptr version).1 = List.range (n + surplus version) := by
  rw [rsdtInit] at hinit ⊢
  by_cases hvalid : validateTable m ptr (tableLength m ptr) = true
  · rw [if_pos hvalid] at hinit ⊢
    dsimp only at hinit ⊢
    rw [h.tables] at hinit ⊢
    cases hresult : (rsdtInitLoop m ptr version (range (n + surplus version))).2 with
    | error e =>
      rw [hresult] at hinit
      cases hinit
    | ok u =>
      rw [hresult] at hinit
      exact ⟨(Except.ok.inj hinit).symm, rsdtInitLoop_returned hresult⟩
  · simp [if_neg hvalid] at hinit

theorem RootTable.not_initInside (hinit : (rsdtInit m ptr version).2 = .ok g) : ¬ InitInside m ptr version n := by
  rw [InitInside, (h.returned hinit).2]
  intro heq
  have hlength := congrArg List.length heq
  have := surplus_pos version
  rw [List.length_range, List.length_range] at hlength
  omega

end

theorem findsInside_iff (htables : g.tables = n + surplus version) :
    FindsInside m g n name ↔ ∃ i < n, HasSignature m (tableEntry m g.rsdt g.version i) name := by
  obtain ⟨more, hrange⟩ := range_surplus n version
  rw [FindsInside, rsdtFindTable, htables, hrange]
  constructor
  · rintro ⟨hinside, -⟩
    by_contra hnone
    simp only [not_exists, not_and] at hnone
    obtain ⟨read, hread⟩ := findTableLoop_first m g name n more
    rw [findTableLoop_append fun i hi => hnone i (mem_range.mp hi), hread] at hinside
    exact Nat.lt_irrefl n (hinside n (by simp))
  · rintro ⟨i, hi, hname⟩
    have hsome : ((range n).find? fun i => HasSignature m (tableEntry m g.rsdt g.version i) name).isSome := by
      rw [find?_isSome]
      exact ⟨i, mem_range.mpr hi, by simpa using hname⟩
    obtain ⟨k, hk⟩ := Option.isSome_iff_exists.mp hsome
    obtain ⟨hfound, before, after, hsplit, hbefore⟩ := find?_eq_some_iff_append.mp hk
    have hin : ∀ j ∈ before ++ [k], j < n := by
      intro j hj
      refine mem_range.mp ?_
      rw [hsplit]
      simp only [mem_append, mem_cons] at hj ⊢
      tauto
    rw [hsplit, append_assoc, cons_append, findTableLoop_append fun j hj => by simpa using hbefore j hj,
      findTableLoop_found (by simpa using hfound)]
    exact ⟨hin, by rw [firstTable, hk]; rfl⟩

/-- `rsdt_init` reads just the entries of the table only when a wrong checksum stops it at the last one. When it returns, it has read
more, and `rsdt_findTable` stays inside the table and finds the first table with a name exactly when some table has the name. -/
theorem rsdt_enumeration (h : RootTable m ptr version n) :
    (InitInside m ptr version n ↔ StopsAtEnd m ptr version n) ∧ ∀ g, (rsdtInit m ptr version).2 = .ok g →
      ¬ InitInside m ptr version n ∧ ∀ name, (FindsInside m g n name ↔ ∃ i < n, HasSignature m (tableEntry m ptr version i) name) := by
  refine ⟨h.initInside_iff, fun g hinit => ⟨h.not_initInside hinit, fun name => ?_⟩⟩
  obtain rfl := (h.returned hinit).1
  exact findsInside_iff rfl

/-! ## A root table with one entry -/

/-- An RSDT at 0x100 whose one entry is the table `APIC` at 0x200. Behind it in memory lies the address of a table `FACP` at 0x300. -/
def acpiMemory : Bytes
  | 0x104 => 40
  | 0x109 => 214
  | 0x125 => 0x02
  | 0x129 => 0x03
  | 0x200 => 0x41
  | 0x201 => 0x50
  | 0x202 => 0x49
  | 0x203 => 0x43
  | 0x204 => 44
  | 0x209 => 183
  | 0x300 => 0x46
  | 0x301 => 0x41
  | 0x302 => 0x43
  | 0x303 => 0x50
  | 0x304 => 36
  | 0x309 => 194
  | _ => 0

/-- `RSDT_NAME_APIC`, `RSDT_NAME_ACPI`. -/
def rsdtNameApic (i : Nat) : UInt8 := [0x41, 0x50, 0x49, 0x43].getD i 0

@[inherit_doc rsdtNameApic] def rsdtNameAcpi (i : Nat) : UInt8 := [0x46, 0x41, 0x43, 0x50].getD i 0

theorem acpiMemory_rootTable : RootTable acpiMemory 0x100 1 1 := ⟨.inl rfl, by decide⟩

theorem rsdtInit_acpiMemory : rsdtInit acpiMemory 0x100 1 = ([0, 1, 2, 3, 4, 5, 6, 7], .ok ⟨0x100, 1, 8⟩) :=
  Prod.ext (by decide) (ok_of_toOption (by decide))

/-- The table that is contained is found. -/
theorem rsdt_enumeration_apic : ¬ InitInside acpiMemory 0x100 1 1 ∧ FindsInside acpiMemory ⟨0x100, 1, 8⟩ 1 rsdtNameApic := by
  obtain ⟨hinit, hfind⟩ := (rsdt_enumeration acpiMemory_rootTable).2 ⟨0x100, 1, 8⟩ (congrArg Prod.snd rsdtInit_acpiMemory)
  exact ⟨hinit, (hfind rsdtNameApic).mpr ⟨0, by decide, by decide⟩⟩

/-- Eight entries are read of one, and a table that is not contained is found. -/
theorem rsdt_reads_behind : RootTable acpiMemory 0x100 1 1 ∧ rsdtInit acpiMemory 0x100 1 = ([0, 1, 2, 3, 4, 5, 6, 7], .ok ⟨0x100, 1, 8⟩) ∧
    ¬ InitInside acpiMemory 0x100 1 1 ∧ rsdtFindTable acpiMemory ⟨0x100, 1, 8⟩ rsdtNameAcpi = ([0, 1], 0x300) ∧
    firstTable acpiMemory ⟨0x100, 1, 8⟩ 1 rsdtNameAcpi = null ∧ ¬ FindsInside acpiMemory ⟨0x100, 1, 8⟩ 1 rsdtNameAcpi := by
  have hfind : rsdtFindTable acpiMemory ⟨0x100, 1, 8⟩ rsdtNameAcpi = ([0, 1], 0x300) := by decide
  refine ⟨acpiMemory_rootTable, rsdtInit_acpiMemory, ?_, hfind, by decide, ?_⟩
  · rw [InitInside, rsdtInit_acpiMemory]
    decide
  · rw [FindsInside, hfind]
    decide

end OmegaOS
