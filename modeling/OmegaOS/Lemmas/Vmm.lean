import OmegaOS.Lemmas.Pmm
import OmegaOS.Lib.Radix
import OmegaOS.Vmm

/-!
# Page tables as a radix tree

What each operation does to the tree that the present entries make: the path of an address is its four indices, the last of
which selects the page.
-/

namespace OmegaOS

open Radix List Function

variable {pg pg' : Paging} {next root t table : Nat} {attr index j phys virt : PageWord} {roots : Set Nat} {pm : Pmm}
  {above : List PageWord} {r : Nat × Paging}

/-! ## Entries -/

theorem getLsbD_addressMask (i : Nat) (hi : i < 64) : addressMask.getLsbD i = decide (12 ≤ i ∧ i < 52) := by
  revert i
  decide

/-- Bit by bit: the field for the address, the other bits for the attributes. -/
theorem getLsbD_setEntry (raw addr attr : PageWord) (i : Nat) (hi : i < 64) :
    (setEntry raw addr attr).getLsbD i = if 12 ≤ i ∧ i < 52 then addr.getLsbD (i - 12) else attr.getLsbD i := by
  have hfield : ∀ j < 64, (0x000000FFFFFFFFFF : PageWord).getLsbD j = decide (j < 40) := by decide
  simp only [setEntry, BitVec.getLsbD_or, BitVec.getLsbD_and, BitVec.getLsbD_not, BitVec.getLsbD_shiftLeft,
    getLsbD_addressMask i hi, hfield (i - 12) (by omega), decide_eq_true hi, Bool.true_and]
  by_cases h12 : i < 12
  · have hout : ¬ (12 ≤ i ∧ i < 52) := by omega
    simp [h12, hout]
  · by_cases h52 : i < 52
    · have hin : 12 ≤ i ∧ i < 52 := by omega
      have h40 : i - 12 < 40 := by omega
      simp [h12, hin, h40]
    · have hout : ¬ (12 ≤ i ∧ i < 52) := by omega
      have h40 : ¬ i - 12 < 40 := by omega
      simp [h12, hout, h40]

/-- `setEntry` makes the entry present when the attributes say so. -/
theorem entryPresent_setEntry (raw addr attr : PageWord) : entryPresent (setEntry raw addr attr) = attr.getLsbD 0 := by
  rw [entryPresent, getLsbD_setEntry raw addr attr 0 (by decide), if_neg (by omega)]

/-- A frame number of 28 bits is read back from the entry. -/
theorem entryAddress_setEntry (raw addr attr : PageWord) (h : addr.toNat < 2 ^ 28) :
    entryAddress (setEntry raw addr attr) = addr.toNat * pageSize := by
  have hfield : (setEntry raw addr attr).extractLsb' 12 40 = addr.setWidth 40 := by
    apply BitVec.eq_of_getLsbD_eq
    intro i hi
    rw [BitVec.getLsbD_extractLsb', BitVec.getLsbD_setWidth, getLsbD_setEntry raw addr attr (12 + i) (by omega), if_pos (by omega)]
    simp [hi]
  rw [entryAddress, hfield, BitVec.toNat_shiftLeft, BitVec.toNat_setWidth, Nat.mod_eq_of_lt (by omega), Nat.shiftLeft_eq,
    Nat.mod_eq_of_lt (by omega)]
  rfl

/-- A page-aligned address survives the shift into the field and back. -/
theorem shift_toNat_mul (a : PageWord) (h : a.toNat % pageSize = 0) : (a >>> 12).toNat * pageSize = a.toNat := by
  rw [BitVec.toNat_ushiftRight, Nat.shiftRight_eq_div_pow]
  unfold pageSize at *
  omega

theorem paPresent_bit (h : attr &&& paPresent = paPresent) : attr.getLsbD 0 = true := by
  have h0 : (attr &&& paPresent).getLsbD 0 = paPresent.getLsbD 0 := by rw [h]
  simpa [paPresent] using h0

/-! ## Paths -/

/-- The indices of an address, from the root down. -/
def pathOf (virt : PageWord) : List PageWord := [pml4Index virt, pdpIndex virt, pdIndex virt, ptIndex virt]

/-- The indices that lead to the last-level table of an address. -/
def tablePath (virt : PageWord) : List PageWord := [pml4Index virt, pdpIndex virt, pdIndex virt]

theorem pathOf_length (virt : PageWord) : (pathOf virt).length = 4 := rfl

theorem tablePath_length (virt : PageWord) : (tablePath virt).length < 4 := Nat.lt_succ_self 3

theorem tablePath_room (virt : PageWord) : ([] : List PageWord).length + (tablePath virt).length < 4 := by
  rw [length_nil, zero_add]
  exact tablePath_length virt

/-- The page of an address: bits 12 to 47. -/
def pageOf (virt : PageWord) : BitVec 36 := virt.extractLsb' 12 36

/-- The page of an address is its bits 12 to 47. -/
theorem pageOf_toNat (v : PageWord) : (pageOf v).toNat = v.toNat / pageSize % 2 ^ 36 := by
  rw [pageOf, BitVec.extractLsb'_toNat, Nat.shiftRight_eq_div_pow]
  rfl

/-- `virt2phys` walks the tables along the four indices. -/
theorem translate_eq_walk (pg : Paging) (pml4 : Nat) (virt : PageWord) : translate pg pml4 virt = walk pg.entry pml4 (pathOf virt) := by
  simp only [translate, Paging.findPt, pathOf, walk_cons, walk_nil, Option.bind_eq_bind, Option.bind_assoc, Option.bind_fun_some]

/-- An index is nine bits of the address. -/
theorem getLsbD_index (virt : PageWord) (s i : Nat) (hi : i < 64) :
    ((virt >>> s) &&& 0x1FF).getLsbD i = (decide (i < 9) && virt.getLsbD (s + i)) := by
  have hmask : ∀ j < 64, (0x1FF : PageWord).getLsbD j = decide (j < 9) := by decide
  rw [BitVec.getLsbD_and, BitVec.getLsbD_ushiftRight, hmask i hi, Bool.and_comm]

/-- Two addresses have an index in common when they agree in its nine bits. -/
theorem index_eq_iff (v w : PageWord) (s : Nat) :
    (v >>> s) &&& 0x1FF = (w >>> s) &&& 0x1FF ↔ ∀ i < 9, v.getLsbD (s + i) = w.getLsbD (s + i) := by
  constructor
  · intro h i hi
    have hbit : ((v >>> s) &&& 0x1FF).getLsbD i = ((w >>> s) &&& 0x1FF).getLsbD i := by rw [h]
    rwa [getLsbD_index v s i (by omega), getLsbD_index w s i (by omega), decide_eq_true hi] at hbit
  · intro h
    apply BitVec.eq_of_getLsbD_eq
    intro i hi
    rw [getLsbD_index v s i hi, getLsbD_index w s i hi]
    by_cases h9 : i < 9
    · rw [h i h9]
    · simp [h9]

/-- Two addresses have the same path exactly when they are on the same page. -/
theorem pathOf_eq_iff (v w : PageWord) : pathOf v = pathOf w ↔ pageOf v = pageOf w := by
  have hpage : pageOf v = pageOf w ↔ ∀ i < 36, v.getLsbD (12 + i) = w.getLsbD (12 + i) := by
    constructor
    · intro h i hi
      have hbit : (pageOf v).getLsbD i = (pageOf w).getLsbD i := by rw [h]
      simpa [pageOf, BitVec.getLsbD_extractLsb', hi] using hbit
    · intro h
      apply BitVec.eq_of_getLsbD_eq
      intro i hi
      simp [pageOf, h i hi]
  simp only [pathOf, cons.injEq, and_true, pml4Index, pdpIndex, pdIndex, ptIndex, index_eq_iff, hpage]
  constructor
  · rintro ⟨h39, h30, h21, h12⟩ i hi
    by_cases h9 : i < 9
    · exact h12 i h9
    by_cases h18 : i < 18
    · simpa [show 21 + (i - 9) = 12 + i by omega] using h21 (i - 9) (by omega)
    by_cases h27 : i < 27
    · simpa [show 30 + (i - 18) = 12 + i by omega] using h30 (i - 18) (by omega)
    · simpa [show 39 + (i - 27) = 12 + i by omega] using h39 (i - 27) (by omega)
  · intro h
    refine ⟨fun i hi => ?_, fun i hi => ?_, fun i hi => ?_, fun i hi => ?_⟩
    · simpa [show 12 + (27 + i) = 39 + i by omega] using h (27 + i) (by omega)
    · simpa [show 12 + (18 + i) = 30 + i by omega] using h (18 + i) (by omega)
    · simpa [show 12 + (9 + i) = 21 + i by omega] using h (9 + i) (by omega)
    · exact h i (by omega)

/-- Addresses in one page are translated alike. -/
theorem translate_of_pageOf_eq (pg : Paging) (pml4 : Nat) (h : pageOf v = pageOf w) : translate pg pml4 v = translate pg pml4 w := by
  rw [translate_eq_walk, translate_eq_walk, (pathOf_eq_iff v w).mpr h]

/-! ## Writing an entry -/

theorem entryAddress_mod (raw : PageWord) : entryAddress raw % pageSize = 0 := by
  rw [entryAddress, BitVec.toNat_shiftLeft, Nat.shiftLeft_eq]
  unfold pageSize
  omega

theorem tables_setAt_self (pg : Paging) (table : Nat) (index raw : PageWord) : (pg.setAt table index raw).tables table index = raw := by
  simp [Paging.setAt]

theorem entry_setAt_self (pg : Paging) (table : Nat) (index raw : PageWord) :
    (pg.setAt table index raw).entry table index = if entryPresent raw then some (entryAddress raw) else none := by
  rw [Paging.entry, tables_setAt_self]

theorem tables_setAt_of_ne (pg : Paging) (raw : PageWord) (h : ¬ (t = table ∧ j = index)) :
    (pg.setAt table index raw).tables t j = pg.tables t j := by
  by_cases ht : t = table
  · subst ht
    have hj : j ≠ index := fun e => h ⟨rfl, e⟩
    simp [Paging.setAt, update_of_ne hj]
  · simp [Paging.setAt, update_of_ne ht]

theorem entry_eq_some (h : pg.entry table index = some next) :
    entryPresent (pg.tables table index) = true ∧ entryAddress (pg.tables table index) = next := by
  unfold Paging.entry at h
  split at h
  · rename_i hp
    exact ⟨hp, Option.some.inj h⟩
  · cases h

theorem entry_eq_none (h : pg.entry table index = none) : entryPresent (pg.tables table index) = false := by
  unfold Paging.entry at h
  split at h
  · cases h
  · rename_i hp
    simpa using hp

theorem entry_congr (h : pg'.tables t j = pg.tables t j) : pg'.entry t j = pg.entry t j := by
  rw [Paging.entry, Paging.entry, h]

theorem entry_setAt_of_ne (pg : Paging) (raw : PageWord) (h : ¬ (t = table ∧ j = index)) :
    (pg.setAt table index raw).entry t j = pg.entry t j := by
  exact entry_congr (tables_setAt_of_ne pg raw h)

/-- The entry that `vmm_mapPage` or `createEntry` writes for a page-aligned address. -/
theorem entry_setEntry (pg : Paging) (table : Nat) (index raw addr attr : PageWord) (hattr : attr.getLsbD 0 = true)
    (halign : addr.toNat % pageSize = 0) (hlt : addr.toNat < 2 ^ 40) :
    (pg.setAt table index (setEntry raw (addr >>> 12) attr)).entry table index = some addr.toNat := by
  have hshift : (addr >>> 12).toNat < 2 ^ 28 := by
    rw [BitVec.toNat_ushiftRight, Nat.shiftRight_eq_div_pow]
    omega
  rw [entry_setAt_self, entryPresent_setEntry, if_pos hattr, entryAddress_setEntry _ _ _ hshift, shift_toNat_mul addr halign]

/-! ## Frames for tables -/

/-- A frame that `pmm_getFrame` returns was clear and is used, and the used frames stay used. -/
theorem pmmGetFrame_fresh {pm' : Pmm} {addr : Nat} (h : pmmGetFrame pm = (addr, pm')) (hne : addr ≠ null) :
    addr % pageSize = 0 ∧ pm.used (addr / pageSize) = false ∧ pm'.used (addr / pageSize) = true ∧
      ∀ f, pm.used f = true → pm'.used f = true := by
  obtain ⟨_, _, first, _, _, _, haddr, _⟩ := pmmGetFrames_run one_pos h hne
  have hgrant := (pmmGetFrames_exclusive_iff one_pos h hne).mpr (unbroken_one pm)
  refine ⟨?_, hgrant.clearBefore 0 one_pos, hgrant.setAfter 0 one_pos, fun f hf => ?_⟩
  · rw [haddr]
    exact Nat.mul_mod_left first pageSize
  · have hkeep := pmmGetFrames_used 1 hf
    rwa [show pmmGetFrames pm 1 = (addr, pm') from h] at hkeep

/-- No frame is given back, and the bitmap keeps its size. -/
structure FramesKept (pm pm' : Pmm) : Prop where
  used : ∀ f, pm.used f = true → pm'.used f = true
  size : pm'.bitmapSize = pm.bitmapSize

theorem FramesKept.refl (pm : Pmm) : FramesKept pm pm := ⟨fun _ h => h, rfl⟩

theorem FramesKept.trans {pm1 pm2 pm3 : Pmm} (h : FramesKept pm1 pm2) (h' : FramesKept pm2 pm3) : FramesKept pm1 pm3 :=
  ⟨fun f hf => h'.used f (h.used f hf), h'.size.trans h.size⟩

/-- An allocation releases no frame. -/
theorem pmmGetFrames_kept (pm : Pmm) (count : Nat) : FramesKept pm (pmmGetFrames pm count).2 :=
  ⟨fun _ hf => pmmGetFrames_used count hf, pmmGetFrames_bitmapSize pm count⟩

/-- Nor does a step down. -/
theorem nextTable_kept (h : nextTable pg table index attr = .ok (next, pg')) : FramesKept pg.pm pg'.pm := by
  rw [nextTable] at h
  split at h
  · rw [createEntry] at h
    obtain ⟨_, -, h⟩ := bind_eq_ok.mp h
    cases h
    exact pmmGetFrames_kept pg.pm 1
  · cases h
    exact .refl pg.pm

/-- Nor does `vmm_mapPage`. -/
theorem vmmMapPage_kept {pml4 : Nat} (h : vmmMapPage pg pml4 phys virt attr = .ok pg') : FramesKept pg.pm pg'.pm := by
  rw [vmmMapPage] at h
  obtain ⟨⟨pdp, pg1⟩, hpdp, h⟩ := bind_eq_ok.mp h
  obtain ⟨⟨pd, pg2⟩, hpd, h⟩ := bind_eq_ok.mp h
  obtain ⟨⟨pt, pg3⟩, hpt, h⟩ := bind_eq_ok.mp h
  cases h
  have hkept : FramesKept pg.pm pg3.pm := ((nextTable_kept hpdp).trans (nextTable_kept hpd)).trans (nextTable_kept hpt)
  exact hkept

/-- The next `n` calls of `pmm_getFrame` return frames, below the bound of what an entry can hold. -/
def FramesAvailable : Pmm → Nat → Prop
  | _, 0 => True
  | pm, n + 1 => (pmmGetFrame pm).1 ≠ null ∧ (pmmGetFrame pm).1 < 2 ^ 40 ∧ FramesAvailable (pmmGetFrame pm).2 n

instance FramesAvailable.decidable : (pm : Pmm) → (n : Nat) → Decidable (FramesAvailable pm n)
  | _, 0 => .isTrue trivial
  | pm, n + 1 =>
    have := FramesAvailable.decidable (pmmGetFrame pm).2 n
    inferInstanceAs (Decidable (_ ∧ _ ∧ FramesAvailable (pmmGetFrame pm).2 n))

theorem FramesAvailable.mono (h : FramesAvailable pm n) (hm : m ≤ n) : FramesAvailable pm m := by
  induction m generalizing pm n with
  | zero => trivial
  | succ m ih =>
    cases n with
    | zero => omega
    | succ n => exact ⟨h.1, h.2.1, ih h.2.2 (by omega)⟩

/-! ## Going down -/

/-- The tables of the address space are distinct, and their frames are used. -/
structure WellFormed (pg : Paging) (pml4 : Nat) : Prop where
  distinct : Distinct pg.entry pml4 4
  used : ∀ t, IsTable pg.entry pml4 4 t → pg.pm.used (t / pageSize) = true

/-- The tables of the address spaces are coherent, and their frames are used. -/
structure WellFormedIn (pg : Paging) (roots : Set Nat) : Prop where
  coherent : Coherent pg.entry roots 4
  used : ∀ t, IsTableOf pg.entry roots 4 t → pg.pm.used (t / pageSize) = true

/-- For one address space alone that is `WellFormed`. -/
theorem wellFormedIn_singleton (pg : Paging) (pml4 : Nat) : WellFormedIn pg {pml4} ↔ WellFormed pg pml4 := by
  constructor
  · intro h
    exact ⟨(coherent_singleton _ _ _).mp h.coherent, fun t ht => h.used t ((isTableOf_singleton _ _ _ t).mpr ht)⟩
  · intro h
    exact ⟨(coherent_singleton _ _ _).mpr h.distinct, fun t ht => h.used t ((isTableOf_singleton _ _ _ t).mp ht)⟩

/-- The tables of `root` on a path are not those of `s`. -/
def PrivatePath (pg : Paging) (root s : Nat) (path : List PageWord) : Prop :=
  ∀ p, p ≠ [] → p <+: path → ∀ t, walk pg.entry root p = some t → walk pg.entry s p ≠ some t

/-- The tables that are missing on the way down a path. -/
def missingTables (pg : Paging) : Nat → List PageWord → Nat
  | _, [] => 0
  | table, index :: path =>
    match pg.entry table index with
    | none => path.length + 1
    | some next => missingTables pg next path

/-- No more tables are missing than the path is long. -/
theorem missingTables_le (pg : Paging) (table : Nat) (path : List PageWord) : missingTables pg table path ≤ path.length := by
  induction path generalizing table with
  | nil => exact le_refl 0
  | cons index path ih =>
    unfold missingTables
    split
    · exact le_refl _
    · exact (ih _).trans (Nat.le_succ _)

/-- The way down of `vmm_mapPage`. -/
def descend (pg : Paging) (table : Nat) (attr : PageWord) : List PageWord → Except Halt (Nat × Paging)
  | [] => .ok (table, pg)
  | index :: path => do
    let (next, pg) ← nextTable pg table index attr
    descend pg next attr path

/-- Tables are added in frames that were not used, at the way of a path only. -/
structure TablesMade (pg pg' : Paging) (roots : Set Nat) (path : List PageWord) : Prop where
  wf : WellFormedIn pg' roots
  used : ∀ f, pg.pm.used f = true → pg'.pm.used f = true
  size : pg'.pm.bitmapSize = pg.pm.bitmapSize
  fresh : ∀ t, IsTableOf pg'.entry roots 4 t → IsTableOf pg.entry roots 4 t ∨ pg.pm.used (t / pageSize) = false
  tables : ∀ s ∈ roots, ∀ p t, p.length < 4 → walk pg.entry s p = some t → walk pg'.entry s p = some t
  off : ∀ s ∈ roots, ∀ p, p.length < 4 → ¬ p <+: path → walk pg'.entry s p = walk pg.entry s p

/-- What making the tables of a path of `root` does: no table and no translation of an address space changes, and private tables stay
private. -/
structure Extended (pg pg' : Paging) (roots : Set Nat) (root : Nat) (path : List PageWord) : Prop extends TablesMade pg pg' roots path where
  values : ∀ s ∈ roots, ∀ p, p.length = 4 → walk pg'.entry s p = walk pg.entry s p
  words : ∀ t, IsTableOf pg.entry roots 4 t → ∀ j, entryPresent (pg.tables t j) = true → pg'.tables t j = pg.tables t j
  priv : ∀ s ∈ roots, s ≠ root → ∀ full, path <+: full → full.length < 4 → PrivatePath pg root s full → PrivatePath pg' root s full

theorem Extended.refl (hwf : WellFormedIn pg roots) (root : Nat) (path : List PageWord) : Extended pg pg roots root path :=
  ⟨⟨hwf, fun _ h => h, rfl, fun _ h => .inl h, fun _ _ _ _ _ h => h, fun _ _ _ _ _ => rfl⟩, fun _ _ _ _ => rfl,
    fun _ _ _ _ => rfl, fun _ _ _ _ _ _ h => h⟩

/-- Tables stay tables. -/
theorem Extended.isTableOf {path : List PageWord}
    (h : Extended pg pg' roots root path) (ht : IsTableOf pg.entry roots 4 t) : IsTableOf pg'.entry roots 4 t := by
  obtain ⟨s, hs, p, hp, hwalk⟩ := ht
  exact ⟨s, hs, p, hp, h.tables s hs p t hp hwalk⟩

/-- Extending along a path and then along a longer one. -/
theorem Extended.trans {pg1 pg2 : Paging} {path path' : List PageWord}
    (h1 : Extended pg pg1 roots root path) (h2 : Extended pg1 pg2 roots root path') (hpath : path <+: path') :
    Extended pg pg2 roots root path' where
  wf := h2.wf
  used := fun f hf => h2.used f (h1.used f hf)
  size := h2.size.trans h1.size
  fresh := by
    intro t ht
    rcases h2.fresh t ht with h | h
    · exact h1.fresh t h
    · refine .inr ?_
      by_contra hu
      simp [h1.used _ (by simpa using hu)] at h
  tables := fun s hs p t hp h => h2.tables s hs p t hp (h1.tables s hs p t hp h)
  off := fun s hs p hp hoff => (h2.off s hs p hp hoff).trans (h1.off s hs p hp fun h => hoff (h.trans hpath))
  values := fun s hs p hp => (h2.values s hs p hp).trans (h1.values s hs p hp)
  words := by
    intro t ht j hj
    have hsame := h1.words t ht j hj
    rw [← hsame]
    exact h2.words t (h1.isTableOf ht) j (hsame ▸ hj)
  priv := fun s hs hne full hfull hlen h => h2.priv s hs hne full hfull hlen (h1.priv s hs hne full (hpath.trans hfull) hlen h)

/-- A frame that was clear has become an empty table in the entry `index` of `table`. -/
structure TableAdded (pg pg' : Paging) (roots : Set Nat) (table : Nat) (index : PageWord) (next : Nat) : Prop where
  clear : pg.pm.used (next / pageSize) = false
  set : pg'.pm.used (next / pageSize) = true
  keep : ∀ f, pg.pm.used f = true → pg'.pm.used f = true
  size : pg'.pm.bitmapSize = pg.pm.bitmapSize
  fresh : ¬ IsTableOf pg.entry roots 4 next
  entry : pg'.entry table index = some next
  empty : ∀ j, pg'.entry next j = none
  same : ∀ t j, IsTableOf pg.entry roots 4 t → ¬ (t = table ∧ j = index) → pg'.tables t j = pg.tables t j

section

variable {path : List PageWord}

/-- `createEntry` returns with a new table when there is a frame for it. -/
theorem createEntry_added (hwf : WellFormedIn pg roots) (htable : IsTableOf pg.entry roots 4 table) (hattr : attr.getLsbD 0 = true)
    (hne : (pmmGetFrame pg.pm).1 ≠ null) (hlt : (pmmGetFrame pg.pm).1 < 2 ^ 40) :
    ∃ next pg', createEntry pg table index attr = .ok (next, pg') ∧ TableAdded pg pg' roots table index next ∧
      pg'.pm = (pmmGetFrame pg.pm).2 := by
  have hsize : (pmmGetFrame pg.pm).2.bitmapSize = pg.pm.bitmapSize := pmmGetFrames_bitmapSize pg.pm 1
  generalize hget : pmmGetFrame pg.pm = r at hne hlt hsize ⊢
  obtain ⟨newPT, pm⟩ := r
  obtain ⟨halign, hclear, hset, hkeep⟩ := pmmGetFrame_fresh hget hne
  have hfresh : ¬ IsTableOf pg.entry roots 4 newPT := by
    intro ht
    simp [hwf.used newPT ht] at hclear
  let pg1 : Paging := { pm := pm, tables := update pg.tables newPT fun _ => 0 }
  let pg2 : Paging := pg1.setAt table index (setEntry (pg1.tables table index) (BitVec.ofNat 64 newPT >>> 12) attr)
  have hcreate : createEntry pg table index attr = .ok (newPT, pg2) := by
    simp only [createEntry, hget]
    rw [show (newPT != null) = true by simpa using hne]
    rfl
  refine ⟨newPT, pg2, hcreate, ⟨hclear, hset, hkeep, hsize, hfresh, ?_, fun j => ?_, fun t j ht hnot => ?_⟩, rfl⟩
  · have hof : (BitVec.ofNat 64 newPT).toNat = newPT := by
      rw [BitVec.toNat_ofNat]
      exact Nat.mod_eq_of_lt (hlt.trans (by decide))
    have := entry_setEntry pg1 table index (pg1.tables table index) (BitVec.ofNat 64 newPT) attr hattr (by rwa [hof]) (by rwa [hof])
    rwa [hof] at this
  · have hne' : newPT ≠ table := fun e => hfresh (e ▸ htable)
    rw [entry_setAt_of_ne pg1 _ fun e => hne' e.1]
    simp [Paging.entry, pg1, entryPresent]
  · have htn : t ≠ newPT := fun e => hfresh (e ▸ ht)
    rw [tables_setAt_of_ne pg1 _ hnot]
    simp [pg1, update_of_ne htn]

section

variable (h : TableAdded pg pg' roots table index next) (hwf : WellFormedIn pg roots) (hroot : root ∈ roots)
  (hpath : walk pg.entry root path = some table) (hlen : path.length + 1 < 4)

include h hwf hroot hpath hlen

/-- The walks after the table was added: those that end at its entry find it, and the others go as before. -/
theorem TableAdded.walks (hempty : pg.entry table index = none) (hs : s ∈ roots) :
    (walk pg.entry s path = some table → walk pg'.entry s (path ++ [index]) = some next) ∧
      ∀ p : List PageWord, p.length ≤ 4 → (p ≠ path ++ [index] ∨ walk pg.entry s path ≠ some table) →
        walk pg'.entry s p = walk pg.entry s p :=
  walk_new_table hwf.coherent hroot hpath hlen (fun t j ht hnot => entry_congr (h.same t j ht hnot)) hempty h.entry h.empty hs

/-- So the path is extended by one step. -/
theorem TableAdded.extended (hempty : pg.entry table index = none) : Extended pg pg' roots root (path ++ [index]) := by
  have hwalk := fun s hs => h.walks hwf hroot hpath hlen hempty (s := s) hs
  have hall : ∀ t, IsTableOf pg'.entry roots 4 t → IsTableOf pg.entry roots 4 t ∨ t = next := by
    rintro t ⟨s, hs, p, hp, ht⟩
    by_cases hcase : p ≠ path ++ [index] ∨ walk pg.entry s path ≠ some table
    · rw [(hwalk s hs).2 p (by omega) hcase] at ht
      exact .inl ⟨s, hs, p, hp, ht⟩
    · obtain ⟨rfl, hst⟩ := not_or.mp hcase |>.imp not_not.mp not_not.mp
      rw [(hwalk s hs).1 hst] at ht
      exact .inr (Option.some.inj ht).symm
  refine ⟨⟨⟨?_, ?_⟩, h.keep, h.size, fun t ht => ?_, fun s hs p t hp ht => ?_, fun s hs p hp hoff => ?_⟩, fun s hs p hp => ?_,
    fun t ht j hj => h.same t j ht ?_, ?_⟩
  · exact Coherent.new_table hwf.coherent hroot hpath hlen (fun t j ht hnot => entry_congr (h.same t j ht hnot)) hempty h.entry
      h.empty h.fresh
  · intro t ht
    rcases hall t ht with ht | rfl
    · exact h.keep _ (hwf.used t ht)
    · exact h.set
  · rcases hall t ht with ht | rfl
    · exact .inl ht
    · exact .inr h.clear
  · -- an old walk to a table goes on as before: it does not end at the entry that was empty
    rw [(hwalk s hs).2 p (by omega), ht]
    by_contra hcase
    obtain ⟨rfl, hst⟩ := not_or.mp hcase |>.imp not_not.mp not_not.mp
    rw [walk_snoc, hst] at ht
    exact absurd (hempty.symm.trans ht) (by simp)
  · refine (hwalk s hs).2 p (by omega) (.inl ?_)
    rintro rfl
    exact hoff (prefix_refl _)
  · refine (hwalk s hs).2 p (by omega) (.inl ?_)
    rintro rfl
    rw [length_append, length_singleton] at hp
    omega
  · -- the entry that was written was not present
    rintro ⟨rfl, rfl⟩
    simp [entry_eq_none hempty] at hj
  · intro s hs hsr full hfull hfl hpriv p hpne hpf t hrt hst
    have hp4 : p.length < 4 := by
      have := hpf.length_le
      omega
    by_cases hpe : p = path ++ [index]
    · subst hpe
      rw [(hwalk root hroot).1 hpath] at hrt
      cases hrt
      by_cases hsp : walk pg.entry s path = some table
      · by_cases hnil : path = []
        · subst hnil
          cases hpath
          exact hsr (Option.some.inj hsp)
        · exact hpriv path hnil ((prefix_append path [index]).trans hfull) table hpath hsp
      · rw [(hwalk s hs).2 _ (by omega) (.inr hsp)] at hst
        exact h.fresh ⟨s, hs, _, hp4, hst⟩
    · rw [(hwalk root hroot).2 p (by omega) (.inl hpe)] at hrt
      rw [(hwalk s hs).2 p (by omega) (.inl hpe)] at hst
      exact hpriv p hpne hpf t hrt hst

end

/-- A new table hangs in the entry, and nothing else changes. -/
theorem createEntry_ok (hwf : WellFormedIn pg roots) (hroot : root ∈ roots) (hpath : walk pg.entry root path = some table)
    (hlen : path.length + 1 < 4) (hattr : attr.getLsbD 0 = true) (hempty : pg.entry table index = none)
    (hne : (pmmGetFrame pg.pm).1 ≠ null) (hlt : (pmmGetFrame pg.pm).1 < 2 ^ 40) :
    ∃ next pg', createEntry pg table index attr = .ok (next, pg') ∧ Extended pg pg' roots root (path ++ [index]) ∧
      walk pg'.entry root (path ++ [index]) = some next ∧ pg'.pm = (pmmGetFrame pg.pm).2 := by
  have htable : IsTableOf pg.entry roots 4 table := ⟨root, hroot, path, by omega, hpath⟩
  obtain ⟨next, pg', hcreate, hadd, hpm⟩ := createEntry_added hwf htable hattr hne hlt
  exact ⟨next, pg', hcreate, hadd.extended hwf hroot hpath hlen hempty, (hadd.walks hwf hroot hpath hlen hempty hroot).1 hpath, hpm⟩

end

/-- The entry that the way down of `vmm_mapPage` looks at. -/
theorem nextTable_none (h : pg.entry table index = none) : nextTable pg table index attr = createEntry pg table index attr := by
  rw [nextTable, entry_eq_none h]
  rfl

theorem nextTable_some (h : pg.entry table index = some next) : nextTable pg table index attr = .ok (next, pg) := by
  obtain ⟨hpresent, haddr⟩ := entry_eq_some h
  rw [nextTable, hpresent, haddr]
  rfl

/-- The way down finds or makes the tables of a path; it returns, and no translation changes. -/
theorem descend_ok (hroot : root ∈ roots) (hattr : attr.getLsbD 0 = true) (path : List PageWord) (hwf : WellFormedIn pg roots)
    (habove : walk pg.entry root above = some table) (hlen : above.length + path.length < 4)
    (hfree : FramesAvailable pg.pm (missingTables pg table path)) :
    ∃ last pg', descend pg table attr path = .ok (last, pg') ∧ Extended pg pg' roots root (above ++ path) ∧
      walk pg'.entry root (above ++ path) = some last := by
  induction path generalizing pg table above with
  | nil => exact ⟨table, pg, rfl, .refl hwf root _, by rwa [append_nil]⟩
  | cons index path ih =>
    rw [length_cons] at hlen
    have happend : above ++ index :: path = above ++ [index] ++ path := by simp
    have hlen' : (above ++ [index]).length + path.length < 4 := by
      rw [length_append, length_singleton]
      omega
    cases he : pg.entry table index with
    | none =>
      rw [missingTables, he] at hfree
      obtain ⟨hne, hlt, hrest⟩ := hfree
      obtain ⟨next, pg1, hcreate, hext, hwalk, hpm⟩ := createEntry_ok hwf hroot habove (by omega) hattr he hne hlt
      obtain ⟨last, pg2, hdesc, hext2, hlast⟩ := ih hext.wf hwalk hlen' (by rw [hpm]; exact hrest.mono (missingTables_le pg1 next path))
      rw [happend]
      refine ⟨last, pg2, ?_, hext.trans hext2 (prefix_append _ _), hlast⟩
      rw [descend, nextTable_none he]
      exact bind_eq_ok.mpr ⟨(next, pg1), hcreate, hdesc⟩
    | some next =>
      rw [missingTables, he] at hfree
      have hwalk : walk pg.entry root (above ++ [index]) = some next := by
        rwa [walk_snoc, habove]
      obtain ⟨last, pg2, hdesc, hrest⟩ := ih hwf hwalk hlen' hfree
      refine ⟨last, pg2, ?_, by rwa [happend]⟩
      rw [descend, nextTable_some he]
      exact bind_eq_ok.mpr ⟨(next, pg), rfl, hdesc⟩

/-- Below an empty table everything is missing. -/
theorem missingTables_of_empty (h : ∀ j, pg.entry table j = none) (path : List PageWord) : missingTables pg table path = path.length := by
  cases path with
  | nil => rfl
  | cons index path => rw [missingTables, h index, length_cons]

/-- A frame below the bound of what an entry can hold, when the bitmap ends there. -/
theorem pmmGetFrame_lt (hsize : pm.bitmapSize ≤ 2 ^ 22) (hne : (pmmGetFrame pm).1 ≠ null) : (pmmGetFrame pm).1 < 2 ^ 40 := by
  have hlt := pmmGetFrames_lt one_pos (Prod.mk.eta (p := pmmGetFrame pm)).symm hne
  unfold bitmapElementSize pageSize at hlt
  omega

/-- When `createEntry` returns there was a frame. -/
theorem frame_of_createEntry (h : createEntry pg table index attr = .ok r) : (pmmGetFrame pg.pm).1 ≠ null := by
  intro hnull
  rw [createEntry] at h
  generalize pmmGetFrame pg.pm = frame at h hnull
  obtain ⟨newPT, pm⟩ := frame
  obtain rfl : newPT = null := hnull
  cases h

/-- One step of the way down: a table is made where there was none, or the one that is there is found. -/
theorem nextTable_cases (hwf : WellFormedIn pg roots)
    (htable : IsTableOf pg.entry roots 4 table) (hattr : attr.getLsbD 0 = true) (hsize : pg.pm.bitmapSize ≤ 2 ^ 22)
    (h : nextTable pg table index attr = .ok (next, pg')) :
    (pg.entry table index = none ∧ createEntry pg table index attr = .ok (next, pg') ∧ TableAdded pg pg' roots table index next ∧
        (pmmGetFrame pg.pm).1 ≠ null ∧ pg'.pm = (pmmGetFrame pg.pm).2) ∨
      (pg.entry table index = some next ∧ pg' = pg) := by
  cases he : pg.entry table index with
  | none =>
    rw [nextTable_none he] at h
    have hne := frame_of_createEntry h
    obtain ⟨next', pg'', hcreate, hadd, hpm⟩ := createEntry_added hwf htable hattr hne (pmmGetFrame_lt hsize hne)
    obtain ⟨rfl, rfl⟩ := Prod.mk.inj (Except.ok.inj (h.symm.trans hcreate))
    exact .inl ⟨rfl, h, hadd, hne, hpm⟩
  | some next' =>
    rw [nextTable_some he] at h
    cases h
    exact .inr ⟨rfl, rfl⟩

/-- When the way down returns, there were frames for the tables that were missing. -/
theorem framesAvailable_of_descend (hroot : root ∈ roots) (hattr : attr.getLsbD 0 = true) (path : List PageWord)
    (hwf : WellFormedIn pg roots) (habove : walk pg.entry root above = some table) (hlen : above.length + path.length < 4)
    (hsize : pg.pm.bitmapSize ≤ 2 ^ 22) (h : descend pg table attr path = .ok r) : FramesAvailable pg.pm (missingTables pg table path) := by
  induction path generalizing pg table above with
  | nil => trivial
  | cons index path ih =>
    rw [length_cons] at hlen
    have hlen' : (above ++ [index]).length + path.length < 4 := by
      rw [length_append, length_singleton]
      omega
    rw [descend] at h
    obtain ⟨⟨next, pg1⟩, hnext, hrest⟩ := bind_eq_ok.mp h
    rcases nextTable_cases hwf ⟨root, hroot, above, by omega, habove⟩ hattr hsize hnext with ⟨he, -, hadd, hne, hpm⟩ | ⟨he, rfl⟩
    · have hext := hadd.extended hwf hroot habove (by omega) he
      have hwalk := (hadd.walks hwf hroot habove (by omega) he hroot).1 habove
      have hfree := ih hext.wf hwalk hlen' (hext.size.trans_le hsize) hrest
      rw [missingTables_of_empty hadd.empty, hpm] at hfree
      rw [missingTables, he]
      exact ⟨hne, pmmGetFrame_lt hsize hne, hfree⟩
    · rw [missingTables, he]
      refine ih hwf ?_ hlen' hsize hrest
      rwa [walk_snoc, habove]

/-! ## Mapping a page -/

/-- Rounding down leaves a page-aligned address alone. -/
theorem rndwn_aligned (virt : PageWord) (h : virt.toNat % pageSize = 0) : BitVec.ofNat 64 (rndwn virt.toNat pageSize) = virt := by
  have hround : rndwn virt.toNat pageSize = virt.toNat := by
    unfold rndwn
    unfold pageSize at *
    omega
  simp [hround]

/-- `vmm_mapPage` of an aligned address: the way down, and then the entry. -/
theorem vmmMapPage_eq (pg : Paging) (pml4 : Nat) (phys virt attr : PageWord) (h : virt.toNat % pageSize = 0) :
    vmmMapPage pg pml4 phys virt attr = descend pg pml4 attr (tablePath virt) >>= fun r =>
        .ok (r.2.setAt r.1 (ptIndex virt) (setEntry (r.2.tables r.1 (ptIndex virt)) (phys >>> 12) attr)) := by
  simp only [vmmMapPage, rndwn_aligned virt h, tablePath, descend, bind_assoc]
  rfl

/-- What `vmm_mapPage` on the root does to the address spaces. -/
structure Mapped (pg pg' : Paging) (roots : Set Nat) (root : Nat) (virt : PageWord) (phys : Nat) : Prop extends
    TablesMade pg pg' roots (tablePath virt) where
  self : translate pg' root virt = some phys
  either : ∀ s ∈ roots, translate pg' s virt = translate pg s virt ∨ translate pg' s virt = some phys
  other : ∀ s ∈ roots, ∀ v, pageOf v ≠ pageOf virt → translate pg' s v = translate pg s v
  priv : ∀ s ∈ roots, s ≠ root → PrivatePath pg root s (tablePath virt) →
    PrivatePath pg' root s (tablePath virt) ∧ translate pg' s virt = translate pg s virt

section

variable (hwf : WellFormedIn pg roots) (hroot : root ∈ roots)

include hwf hroot

/-- Writing the entry of a page, with its tables there. -/
theorem setValue_mapped {pt : Nat} (hpt : walk pg.entry root (tablePath virt) = some pt) (raw : PageWord) :
    let pg' := pg.setAt pt (ptIndex virt) raw
    WellFormedIn pg' roots ∧ (∀ s ∈ roots, ∀ p, p.length < 4 → walk pg'.entry s p = walk pg.entry s p) ∧
      (∀ s ∈ roots, walk pg.entry s (tablePath virt) = some pt → translate pg' s virt = pg'.entry pt (ptIndex virt)) ∧
      ∀ s ∈ roots, ∀ v, (pageOf v ≠ pageOf virt ∨ walk pg.entry s (tablePath virt) ≠ some pt) → translate pg' s v = translate pg s v := by
  intro pg'
  have hsame : ∀ t j, IsTableOf pg.entry roots 4 t → ¬ (t = pt ∧ j = ptIndex virt) → pg'.entry t j = pg.entry t j :=
    fun t j _ hnot => entry_setAt_of_ne pg raw hnot
  have hset := fun s hs => walk_set_value hwf.coherent hroot hpt hsame rfl (s := s) hs
  refine ⟨⟨hwf.coherent.congr fun s hs => (hset s hs).1, ?_⟩, fun s hs => (hset s hs).1, fun s hs hst => ?_, fun s hs v hv => ?_⟩
  · rintro t ⟨s, hs, p, hp, ht⟩
    rw [(hset s hs).1 p hp] at ht
    exact hwf.used t ⟨s, hs, p, hp, ht⟩
  · rw [translate_eq_walk]
    exact (hset s hs).2.1 hst
  · rw [translate_eq_walk, translate_eq_walk]
    refine (hset s hs).2.2 _ rfl (hv.imp_left fun hne he => hne ?_)
    exact (pathOf_eq_iff v virt).mp he

section

variable (hvirt : virt.toNat % pageSize = 0) (hphys : phys.toNat % pageSize = 0) (hlt : phys.toNat < 2 ^ 40) (hattr : attr.getLsbD 0 = true)

include hvirt hphys hlt hattr

/-- `vmm_mapPage` of a page-aligned address returns when there are frames for the tables that are missing. -/
theorem vmmMapPage_ok (hfree : FramesAvailable pg.pm (missingTables pg root (tablePath virt))) :
    ∃ pg', vmmMapPage pg root phys virt attr = .ok pg' ∧ Mapped pg pg' roots root virt phys.toNat := by
  obtain ⟨pt, pg1, hdesc, hext, hpt⟩ := descend_ok hroot hattr (tablePath virt) hwf (walk_nil _ _) (tablePath_room virt) hfree
  rw [nil_append] at hext hpt
  obtain ⟨hwf2, hshort, hself, hother⟩ := setValue_mapped hext.wf hroot hpt (setEntry (pg1.tables pt (ptIndex virt)) (phys >>> 12) attr)
  have hvalues : ∀ s ∈ roots, ∀ v, translate pg1 s v = translate pg s v := by
    intro s hs v
    rw [translate_eq_walk, translate_eq_walk]
    exact hext.values s hs _ rfl
  have hentry := entry_setEntry pg1 pt (ptIndex virt) (pg1.tables pt (ptIndex virt)) phys attr hattr hphys hlt
  refine ⟨_, ?_, ⟨hwf2, hext.used, hext.size, ?_, ?_, ?_⟩, ?_, ?_, ?_, ?_⟩
  · rw [vmmMapPage_eq pg root phys virt attr hvirt]
    exact bind_eq_ok.mpr ⟨(pt, pg1), hdesc, rfl⟩
  · rintro t ⟨s, hs, p, hp, ht⟩
    rw [hshort s hs p hp] at ht
    exact hext.fresh t ⟨s, hs, p, hp, ht⟩
  · intro s hs p t hp ht
    rw [hshort s hs p hp]
    exact hext.tables s hs p t hp ht
  · intro s hs p hp hoff
    rw [hshort s hs p hp]
    exact hext.off s hs p hp hoff
  · exact (hself root hroot hpt).trans hentry
  · intro s hs
    by_cases hst : walk pg1.entry s (tablePath virt) = some pt
    · exact .inr ((hself s hs hst).trans hentry)
    · exact .inl ((hother s hs virt (.inr hst)).trans (hvalues s hs virt))
  · intro s hs v hv
    exact (hother s hs v (.inl hv)).trans (hvalues s hs v)
  · intro s hs hne hpriv
    have hpriv1 := hext.priv s hs hne (tablePath virt) (prefix_refl _) (tablePath_length virt) hpriv
    refine ⟨fun p hpne hpp t hrt hst => ?_, ?_⟩
    · have hp4 : p.length < 4 := Nat.lt_succ_of_le hpp.length_le
      rw [hshort root hroot p hp4] at hrt
      rw [hshort s hs p hp4] at hst
      exact hpriv1 p hpne hpp t hrt hst
    · refine (hother s hs virt (.inr ?_)).trans (hvalues s hs virt)
      exact hpriv1 (tablePath virt) (by simp [tablePath]) (prefix_refl _) pt hpt

/-- `vmm_mapPage`, when it returns, has mapped the page. -/
theorem vmmMapPage_mapped (hsize : pg.pm.bitmapSize ≤ 2 ^ 22) (h : vmmMapPage pg root phys virt attr = .ok pg') :
    Mapped pg pg' roots root virt phys.toNat := by
  have hdesc := h
  rw [vmmMapPage_eq pg root phys virt attr hvirt] at hdesc
  obtain ⟨r, hdesc, -⟩ := bind_eq_ok.mp hdesc
  have hfree := framesAvailable_of_descend hroot hattr (tablePath virt) hwf (walk_nil _ _) (tablePath_room virt) hsize hdesc
  obtain ⟨pg1, hmap, hmapped⟩ := vmmMapPage_ok hwf hroot hvirt hphys hlt hattr hfree
  obtain rfl := Except.ok.inj (h.symm.trans hmap)
  exact hmapped

end

end

end OmegaOS
