import OmegaOS.Lemmas.Vmm

/-!
# Page tables refine a map from pages to addresses

Any sequence of `vmm_mapPage` and `vmm_unmapPage` on one address space does to its translation what the same sequence of
updates does to a map from pages.
-/

namespace OmegaOS

open Radix Function

variable {pml4 : Nat} {pg : Paging} {virt : PageWord}

/-- What the tables stand for: a finite map from pages to physical addresses. -/
abbrev PageMap := BitVec 36 → Option Nat

/-- The translation of the tables. -/
def translation (pg : Paging) (pml4 : Nat) : PageMap := fun page => translate pg pml4 (page.zeroExtend 64 <<< 12)

/-- A call on the address space. -/
inductive PageOp where
  | map (phys virt attr : PageWord)
  | unmap (virt : PageWord)

/-- The call on the tables. -/
def PageOp.run (pml4 : Nat) (pg : Paging) : PageOp → Except Halt Paging
  | .map phys virt attr => vmmMapPage pg pml4 phys virt attr
  | .unmap virt => do
    let (_, pg) ← vmmUnmapPage pg pml4 virt
    return pg

/-- The call on the map. -/
def PageOp.apply (m : PageMap) : PageOp → PageMap
  | .map phys virt _ => update m (pageOf virt) (some phys.toNat)
  | .unmap virt => update m (pageOf virt) none

/-- When a call may be made: the addresses of a new page are page aligned, the physical one is not 0 and has 40 bits, the
attributes say present and there are frames for the tables that are missing; the frame of a page that is removed is no frame
of a table and passes the assertion of `pmm_releaseFrame`. -/
def PageOp.Admissible (pml4 : Nat) (pg : Paging) : PageOp → Prop
  | .map phys virt attr =>
    virt.toNat % pageSize = 0 ∧ phys.toNat % pageSize = 0 ∧ 0 < phys.toNat ∧ phys.toNat < 2 ^ 40 ∧
      attr &&& paPresent = paPresent ∧
      FramesAvailable pg.pm (missingTables pg pml4 [pml4Index virt, pdpIndex virt, pdIndex virt])
  | .unmap virt => ∀ phys, translate pg pml4 virt = some phys →
      (∀ t, IsTable pg.entry pml4 4 t → t / pageSize ≠ phys / pageSize) ∧ phys / pageSize ≤ pg.pm.bitmapSize

/-- A sequence of calls. -/
def runPageOps (pml4 : Nat) (pg : Paging) (ops : List PageOp) : Except Halt Paging := ops.foldlM (PageOp.run pml4) pg

/-- Every call of the sequence is admissible where it is made. -/
def AdmissibleRun (pml4 : Nat) : Paging → List PageOp → Prop
  | _, [] => True
  | pg, op :: ops => op.Admissible pml4 pg ∧ ∀ pg', op.run pml4 pg = .ok pg' → AdmissibleRun pml4 pg' ops

/-! ## One call -/

theorem pageOf_shift (page : BitVec 36) : pageOf (page.zeroExtend 64 <<< 12) = page := by
  apply BitVec.eq_of_getLsbD_eq
  intro i hi
  have h64 : 12 + i < 64 := by omega
  simp [pageOf, hi, h64]

theorem translate_eq_translation (pg : Paging) (pml4 : Nat) (virt : PageWord) :
    translate pg pml4 virt = translation pg pml4 (pageOf virt) :=
  translate_of_pageOf_eq pg pml4 (pageOf_shift (pageOf virt)).symm

/-- A change of the translation of one page is an update of the map. -/
theorem translation_update {pg' : Paging} {value : Option Nat} (hself : translate pg' pml4 virt = value)
    (hother : ∀ v, pageOf v ≠ pageOf virt → translate pg' pml4 v = translate pg pml4 v) :
    translation pg' pml4 = update (translation pg pml4) (pageOf virt) value := by
  funext page
  by_cases hp : page = pageOf virt
  · subst hp
    rw [update_self, ← translate_eq_translation, hself]
  · rw [update_of_ne hp, translation, translation]
    refine hother _ ?_
    rwa [pageOf_shift]

/-- `vmm_mapPage` returns, keeps the tables distinct and their frames used, and updates the map at one page. -/
theorem map_refines (hwf : WellFormed pg pml4) {phys attr : PageWord} (hadm : (PageOp.map phys virt attr).Admissible pml4 pg) :
    ∃ pg', vmmMapPage pg pml4 phys virt attr = .ok pg' ∧ WellFormed pg' pml4 ∧
      translation pg' pml4 = update (translation pg pml4) (pageOf virt) (some phys.toNat) := by
  obtain ⟨hvirt, hphys, -, hlt, hattr, hfree⟩ := hadm
  obtain ⟨pg', hmap, hmapped⟩ := vmmMapPage_ok ((wellFormedIn_singleton pg pml4).mpr hwf) (Set.mem_singleton pml4) hvirt hphys hlt
    (paPresent_bit hattr) hfree
  refine ⟨pg', hmap, (wellFormedIn_singleton pg' pml4).mp hmapped.wf, translation_update ?_ fun v hne => ?_⟩
  · exact hmapped.self
  · exact hmapped.other pml4 (Set.mem_singleton pml4) v hne

theorem findPt_eq_walk (pg : Paging) (pml4 : Nat) (virt : PageWord) : pg.findPt pml4 virt = walk pg.entry pml4 (tablePath virt) := by
  simp only [Paging.findPt, tablePath, walk_cons, walk_nil, Option.bind_eq_bind, Option.bind_fun_some]

/-- A page that is not mapped stays as it is when it is removed. -/
theorem translation_unmapped (h : translate pg pml4 virt = none) :
    translation pg pml4 = update (translation pg pml4) (pageOf virt) none := by
  exact translation_update h fun _ _ => rfl

/-- `vmm_unmapPage` returns, keeps the tables distinct and their frames used, and removes one page from the map. -/
theorem unmap_refines (hwf : WellFormed pg pml4) (hadm : (PageOp.unmap virt).Admissible pml4 pg) :
    ∃ phys pg', vmmUnmapPage pg pml4 virt = .ok (phys, pg') ∧ WellFormed pg' pml4 ∧
      translation pg' pml4 = update (translation pg pml4) (pageOf virt) none := by
  have htr : translate pg pml4 virt = (pg.findPt pml4 virt).bind fun pt => pg.entry pt (ptIndex virt) := rfl
  cases hpt : pg.findPt pml4 virt with
  | none =>
    refine ⟨null, pg, ?_, hwf, translation_unmapped ?_⟩
    · rw [vmmUnmapPage, hpt]
    · rw [htr, hpt]
      rfl
  | some pt =>
    cases hpresent : entryPresent (pg.tables pt (ptIndex virt)) with
    | false =>
      refine ⟨null, pg, ?_, hwf, translation_unmapped ?_⟩
      · simp [vmmUnmapPage, hpt, hpresent]
      · rw [htr, hpt, Option.bind_some, Paging.entry, hpresent]
        rfl
    | true =>
      generalize hraw : pg.tables pt (ptIndex virt) = raw at hpresent
      have hmapped : translate pg pml4 virt = some (entryAddress raw) := by
        rw [htr, hpt, Option.bind_some, Paging.entry, hraw, if_pos hpresent]
      obtain ⟨hnotTable, hassert⟩ := hadm _ hmapped
      let pg1 := pg.setAt pt (ptIndex virt) (raw &&& ~~~paPresent)
      let pm' := (List.range 1).foldl (fun pm i => clearFrame pm (entryAddress raw / pageSize + i))
        { pg.pm with lastFoundBitmap := entryAddress raw / pageSize }
      have hrelease : pmmReleaseFrame pg1.pm (entryAddress raw) = .ok pm' := by
        have hcond : (entryAddress raw % pageSize == 0 && decide (entryAddress raw / pageSize ≤ pg.pm.bitmapSize)) = true := by
          rw [entryAddress_mod raw, decide_eq_true hassert]
          rfl
        show pmmReleaseFrames pg.pm (entryAddress raw) 1 = .ok pm'
        rw [pmmReleaseFrames, hcond]
        rfl
      have hwalk : walk pg.entry pml4 (tablePath virt) = some pt := by
        rw [← findPt_eq_walk, hpt]
      obtain ⟨hwf1, hshort, hself, hother⟩ := setValue_mapped ((wellFormedIn_singleton pg pml4).mpr hwf) (Set.mem_singleton pml4)
        hwalk (raw &&& ~~~paPresent)
      have hgone : pg1.entry pt (ptIndex virt) = none := by
        rw [entry_setAt_self]
        simp [entryPresent, paPresent]
      have hwf1 := (wellFormedIn_singleton pg1 pml4).mp hwf1
      refine ⟨entryAddress raw, { pg1 with pm := pm' }, ?_, ⟨hwf1.distinct, ?_⟩, ?_⟩
      · simp only [vmmUnmapPage, hpt, hraw, hpresent]
        exact bind_eq_ok.mpr ⟨pm', hrelease, rfl⟩
      · rintro t ⟨p, hp, ht⟩
        rw [show walk (Paging.entry { pg1 with pm := pm' }) pml4 p = walk pg.entry pml4 p from
          hshort pml4 (Set.mem_singleton pml4) p hp] at ht
        have htable : IsTable pg.entry pml4 4 t := ⟨p, hp, ht⟩
        have hne := hnotTable t htable
        rw [clearFrames_used, decide_eq_false (by omega), Bool.not_false, Bool.and_true]
        exact hwf.used t htable
      · exact translation_update ((hself pml4 (Set.mem_singleton pml4) hwalk).trans hgone) fun v hne => hother pml4 (Set.mem_singleton pml4) v (.inl hne)

/-! ## Whole runs -/

theorem PageOp.run_refines (hwf : WellFormed pg pml4) (op : PageOp) (hadm : op.Admissible pml4 pg) :
    ∃ pg', op.run pml4 pg = .ok pg' ∧ WellFormed pg' pml4 ∧ translation pg' pml4 = op.apply (translation pg pml4) := by
  cases op with
  | map phys virt attr => exact map_refines hwf hadm
  | unmap virt =>
    obtain ⟨phys, pg', hrun, hrest⟩ := unmap_refines hwf hadm
    exact ⟨pg', bind_eq_ok.mpr ⟨(phys, pg'), hrun, rfl⟩, hrest⟩

theorem runPageOps_refines (ops : List PageOp) (hwf : WellFormed pg pml4) (hadm : AdmissibleRun pml4 pg ops) :
    ∃ pg', runPageOps pml4 pg ops = .ok pg' ∧ WellFormed pg' pml4 ∧
      translation pg' pml4 = ops.foldl PageOp.apply (translation pg pml4) := by
  induction ops generalizing pg with
  | nil => exact ⟨pg, rfl, hwf, rfl⟩
  | cons op ops ih =>
    obtain ⟨pg1, hrun1, hwf1, htr1⟩ := op.run_refines hwf hadm.1
    obtain ⟨pg2, hrun2, hwf2, htr2⟩ := ih hwf1 (hadm.2 pg1 hrun1)
    refine ⟨pg2, ?_, hwf2, ?_⟩
    · exact bind_eq_ok.mpr ⟨pg1, hrun1, hrun2⟩
    · rw [htr2, htr1]
      rfl

/-- Page tables refine a finite map. After any sequence of admissible calls, `virt2phys` is the lookup of bits 12 to 47 of the
address in the map that the same updates make of the initial translation, and the page-table frames are still distinct and
used. -/
theorem pageTables_refine_map {pg : Paging} {pml4 : Nat} (hwf : WellFormed pg pml4) (ops : List PageOp) (hadm : AdmissibleRun pml4 pg ops) :
    ∃ pg', runPageOps pml4 pg ops = .ok pg' ∧ WellFormed pg' pml4 ∧
      ∀ w, virt2phys pg' pml4 w = ((ops.foldl PageOp.apply (translation pg pml4)) (pageOf w)).getD null := by
  obtain ⟨pg', hrun, hwf', htr⟩ := runPageOps_refines ops hwf hadm
  refine ⟨pg', hrun, hwf', fun w => ?_⟩
  rw [virt2phys, translate_eq_translation, htr]

/-- An address space whose only table is an empty root. -/
theorem wellFormed_of_empty (hempty : ∀ j, pg.entry pml4 j = none) (hu : pg.pm.used (pml4 / pageSize) = true) : WellFormed pg pml4 := by
  have hwalk : ∀ p t, walk pg.entry pml4 p = some t → p = [] ∧ t = pml4 := by
    intro p t ht
    cases p with
    | nil =>
      cases ht
      exact ⟨rfl, rfl⟩
    | cons i p => simp [hempty] at ht
  refine ⟨fun p q t _ _ hp hq => ?_, fun t ht => ?_⟩
  · rw [(hwalk p t hp).1, (hwalk q t hq).1]
  · obtain ⟨p, -, hp⟩ := ht
    rwa [(hwalk p t hp).2]

theorem wellFormed_empty {pm : Pmm} (hu : pm.used (pml4 / pageSize) = true) : WellFormed { pm := pm, tables := fun _ _ => 0 } pml4 :=
  wellFormed_of_empty (fun _ => by simp [Paging.entry, entryPresent]) hu

/-- Four free frames, and the root in the frame before them. -/
def examplePaging : Paging :=
  { pm := { bitmap := fun _ => 0xFFFFFFFFFFFFFF0F, bitmapSize := 1, lastFoundBitmap := 0 }, tables := fun _ _ => 0 }

/-- A page mapped at an address translates to its frame. -/
theorem pageTables_refine_map_one : ∃ pg', runPageOps 0x3000 examplePaging [.map 0x9000 0x400000 7] = .ok pg' ∧
    virt2phys pg' 0x3000 0x400ABC = 0x9000 := by
  obtain ⟨pg', hrun, -, hlookup⟩ := pageTables_refine_map (wellFormed_empty (by decide)) [.map 0x9000 0x400000 7]
    (show AdmissibleRun 0x3000 examplePaging [.map 0x9000 0x400000 7] from
      ⟨⟨by decide, by decide, by decide, by decide, by decide, by decide⟩, fun _ _ => trivial⟩)
  refine ⟨pg', hrun, ?_⟩
  rw [hlookup]
  decide

end OmegaOS
