import OmegaOS.Theorems.PageMap

/-!
# Effective permissions

The processor grants an access when all four entries on its way down grant it. `vmm_mapPage` writes the attributes of a page into the
entries it makes, and leaves the entries it finds, so the permissions of a page depend on the pages mapped before it.
-/

namespace OmegaOS

open Radix List

variable {last b pml4 : Nat} {attr : PageWord} {path above : List PageWord}

/-! ## The entries on the way down -/

/-- The bits `attr.readWrite` and `attr.supervisor`, that `PA_READ_WRITE` and `PA_SUPERVISOR` set. A page of the user has the
second one. -/
def entryReadWrite (raw : PageWord) : Bool := raw.getLsbD 1

@[inherit_doc entryReadWrite] def entrySupervisor (raw : PageWord) : Bool := raw.getLsbD 2

/-- The entries that the processor reads on its way down a path. -/
def Paging.wordsOn (pg : Paging) : Nat → List PageWord → List PageWord
  | _, [] => []
  | table, index :: path => pg.tables table index :: pg.wordsOn (entryAddress (pg.tables table index)) path

/-- The entries on the way down a path that are present, up to the first that is not. -/
def Paging.presentOn (pg : Paging) : Nat → List PageWord → List PageWord
  | _, [] => []
  | table, index :: path =>
    if entryPresent (pg.tables table index) then
      pg.tables table index :: pg.presentOn (entryAddress (pg.tables table index)) path
    else []

/-- Write access and user access to a page: all entries of its walk grant it. -/
def effectiveReadWrite (pg : Paging) (pml4 : Nat) (virt : PageWord) : Bool := (pg.wordsOn pml4 (pathOf virt)).all entryReadWrite

@[inherit_doc effectiveReadWrite]
def effectiveSupervisor (pg : Paging) (pml4 : Nat) (virt : PageWord) : Bool := (pg.wordsOn pml4 (pathOf virt)).all entrySupervisor

section

variable {pg pg' : Paging} {roots : Set Nat} {root table : Nat}

theorem wordsOn_congr (path : List PageWord) {root : Nat} (hwalk : walk pg.entry root path = some last)
    (hsame : ∀ p j t, p ++ [j] <+: path → walk pg.entry root p = some t → entryPresent (pg.tables t j) = true →
      pg'.tables t j = pg.tables t j) :
    pg'.wordsOn root path = pg.wordsOn root path := by
  induction path generalizing root with
  | nil => rfl
  | cons index path ih =>
    rw [walk_cons] at hwalk
    obtain ⟨next, hentry, hrest⟩ := Option.bind_eq_some_iff.mp hwalk
    obtain ⟨hpresent, haddr⟩ := entry_eq_some hentry
    have hhead := hsame [] index root (prefix_append [index] path) rfl hpresent
    rw [Paging.wordsOn, Paging.wordsOn, hhead, haddr]
    refine congrArg _ (ih hrest fun p j t hp ht => hsame (index :: p) j t ?_ ?_)
    · exact (prefix_cons_inj index).mpr hp
    · rwa [walk_cons, hentry]

theorem wordsOn_snoc (path : List PageWord) {root : Nat} (hwalk : walk pg.entry root path = some last) (index : PageWord) :
    pg.wordsOn root (path ++ [index]) = pg.wordsOn root path ++ [pg.tables last index] := by
  induction path generalizing root with
  | nil =>
    obtain rfl : root = last := Option.some.inj hwalk
    rfl
  | cons i path ih =>
    rw [walk_cons] at hwalk
    obtain ⟨next, hentry, hrest⟩ := Option.bind_eq_some_iff.mp hwalk
    obtain ⟨-, haddr⟩ := entry_eq_some hentry
    simp [Paging.wordsOn, haddr, ih hrest]

theorem presentOn_of_empty (h : ∀ j, pg.entry table j = none) (path : List PageWord) : pg.presentOn table path = [] := by
  cases path with
  | nil => rfl
  | cons index path =>
    rw [Paging.presentOn, entry_eq_none (h index)]
    rfl

/-! ## One call -/

/-- The entry that `createEntry` makes has the attributes it was given. -/
theorem getLsbD_createEntry {index : PageWord} {next : Nat} (hb : b < 12) (h : createEntry pg table index attr = .ok (next, pg')) :
    (pg'.tables table index).getLsbD b = attr.getLsbD b := by
  rw [createEntry] at h
  obtain ⟨⟨⟩, -, hret⟩ := bind_eq_ok.mp h
  cases hret
  rw [tables_setAt_self, getLsbD_setEntry _ _ _ b (by omega), if_neg (by omega)]

theorem descend_extended (hroot : root ∈ roots) (hattr : attr.getLsbD 0 = true) (hwf : WellFormedIn pg roots)
    (habove : walk pg.entry root above = some table)
    (hlen : above.length + path.length < 4) (hsize : pg.pm.bitmapSize ≤ 2 ^ 22) (h : descend pg table attr path = .ok (last, pg')) :
    Extended pg pg' roots root (above ++ path) ∧ walk pg'.entry root (above ++ path) = some last := by
  have hfree := framesAvailable_of_descend hroot hattr path hwf habove hlen hsize h
  obtain ⟨last', pg'', hdesc, hext, hwalk⟩ := descend_ok hroot hattr path hwf habove hlen hfree
  obtain ⟨rfl, rfl⟩ := Prod.mk.inj (Except.ok.inj (h.symm.trans hdesc))
  exact ⟨hext, hwalk⟩

/-- The entries on the way down have an attribute when those that were found have it, since those that are made have it. -/
theorem descend_attribute (hroot : root ∈ roots) (hattr : attr.getLsbD 0 = true) (hb : b < 12)
    (hbit : attr.getLsbD b = true) (path : List PageWord) {pg pg' : Paging} {table : Nat}
    (hwf : WellFormedIn pg roots) (habove : walk pg.entry root above = some table) (hlen : above.length + path.length < 4)
    (hsize : pg.pm.bitmapSize ≤ 2 ^ 22) (h : descend pg table attr path = .ok (last, pg')) :
    (pg'.wordsOn table path).all (·.getLsbD b) = (pg.presentOn table path).all (·.getLsbD b) := by
  induction path generalizing pg table above with
  | nil => rfl
  | cons index path ih =>
    rw [length_cons] at hlen
    have hlen' : (above ++ [index]).length + path.length < 4 := by
      rw [length_append, length_singleton]
      omega
    rw [descend] at h
    obtain ⟨⟨next, pg1⟩, hnext, hrest⟩ := bind_eq_ok.mp h
    have htable : IsTableOf pg.entry roots 4 table := ⟨root, hroot, above, by omega, habove⟩
    rcases nextTable_cases hwf htable hattr hsize hnext with ⟨he, hcreate, hadd, -⟩ | ⟨he, rfl⟩
    · have hext := hadd.extended hwf hroot habove (by omega) he
      have hwalk := (hadd.walks hwf hroot habove (by omega) he hroot).1 habove
      have hsize1 := hext.size.trans_le hsize
      obtain ⟨hpresent, haddr⟩ := entry_eq_some hadd.entry
      have hhead := (descend_extended hroot hattr hext.wf hwalk hlen' hsize1 hrest).1.words table (hext.isTableOf htable) index hpresent
      rw [Paging.wordsOn, hhead, haddr, all_cons, ih hext.wf hwalk hlen' hsize1 hrest, presentOn_of_empty hadd.empty,
        getLsbD_createEntry hb hcreate, hbit, Paging.presentOn, entry_eq_none he]
      rfl
    · have hwalk : walk pg1.entry root (above ++ [index]) = some next := by
        rwa [walk_snoc, habove]
      obtain ⟨hpresent, haddr⟩ := entry_eq_some he
      have hhead := (descend_extended hroot hattr hwf hwalk hlen' hsize hrest).1.words table htable index hpresent
      rw [Paging.wordsOn, hhead, haddr, all_cons, ih hwf hwalk hlen' hsize hrest, Paging.presentOn, if_pos hpresent, haddr, all_cons]

/-- Making tables changes no entry of a walk. -/
theorem wordsOn_extended {made : List PageWord} (hext : Extended pg pg' roots root made) (hroot : root ∈ roots)
    (hlen : path.length ≤ 4) (hwalk : walk pg.entry root path = some last) : pg'.wordsOn root path = pg.wordsOn root path := by
  refine wordsOn_congr path hwalk fun p j t hp ht hpresent => hext.words t ⟨root, hroot, p, ?_, ht⟩ j hpresent
  have := hp.length_le
  rw [length_append, length_singleton] at this
  omega

/-- Writing the entry of a page changes no other entry of a walk. -/
theorem wordsOn_setAt {virt : PageWord} {pt : Nat} (hwf : WellFormedIn pg roots) (hroot : root ∈ roots)
    (hpt : walk pg.entry root (tablePath virt) = some pt) (raw : PageWord) (hlen : path.length ≤ 4)
    (hwalk : walk pg.entry root path = some last) (hoff : ¬ pathOf virt <+: path) :
    (pg.setAt pt (ptIndex virt) raw).wordsOn root path = pg.wordsOn root path := by
  refine wordsOn_congr path hwalk fun p j t hp ht _ => tables_setAt_of_ne pg raw ?_
  rintro ⟨rfl, rfl⟩
  have hp4 : p.length < 4 := by
    have := hp.length_le
    rw [length_append, length_singleton] at this
    omega
  -- the table is found on one path only
  obtain rfl := hwf.coherent root hroot root hroot p (tablePath virt) t hp4 (tablePath_length virt) ht hpt
  exact hoff hp

/-- What `vmm_mapPage` on the root does to the permissions in the address spaces. -/
structure Granted (pg pg' : Paging) (roots : Set Nat) (root : Nat) (virt attr : PageWord) : Prop where
  wf : WellFormedIn pg' roots
  size : pg'.pm.bitmapSize = pg.pm.bitmapSize
  present : (translate pg' root virt).isSome = true
  self : ∀ b < 12, (pg'.wordsOn root (pathOf virt)).all (·.getLsbD b) =
    (attr.getLsbD b && (pg.presentOn root (tablePath virt)).all (·.getLsbD b))
  other : ∀ v, pageOf v ≠ pageOf virt → (translate pg root v).isSome = true →
    translate pg' root v = translate pg root v ∧ pg'.wordsOn root (pathOf v) = pg.wordsOn root (pathOf v)

/-- What one `vmm_mapPage` grants. -/
theorem vmmMapPage_granted (hwf : WellFormedIn pg roots) (hroot : root ∈ roots) {phys virt : PageWord}
    (hvirt : virt.toNat % pageSize = 0) (hattr : attr.getLsbD 0 = true) (hsize : pg.pm.bitmapSize ≤ 2 ^ 22)
    (h : vmmMapPage pg root phys virt attr = .ok pg') : Granted pg pg' roots root virt attr := by
  rw [vmmMapPage_eq pg root phys virt attr hvirt] at h
  obtain ⟨⟨pt, pg1⟩, hdesc, hret⟩ := bind_eq_ok.mp h
  cases hret
  have hlen := tablePath_room virt
  obtain ⟨hext, hpt⟩ := descend_extended hroot hattr hwf (walk_nil _ _) hlen hsize hdesc
  rw [nil_append] at hext hpt
  let raw := setEntry (pg1.tables pt (ptIndex virt)) (phys >>> 12) attr
  obtain ⟨hwf', hshort, hself, hother⟩ := setValue_mapped hext.wf hroot hpt raw
  refine ⟨hwf', hext.size, ?_, fun b hb => ?_, fun v hv hmapped => ⟨?_, ?_⟩⟩
  · rw [hself root hroot hpt, entry_setAt_self, entryPresent_setEntry, if_pos hattr]
    rfl
  · have hwords : (pg1.setAt pt (ptIndex virt) raw).wordsOn root (pathOf virt) = pg1.wordsOn root (tablePath virt) ++ [raw] := by
      have hnot : ¬ pathOf virt <+: tablePath virt := fun hpre => absurd hpre.length_le (Nat.not_succ_le_self 3)
      rw [← wordsOn_setAt hext.wf hroot hpt raw (tablePath_length virt).le hpt hnot]
      have hpt' : walk (pg1.setAt pt (ptIndex virt) raw).entry root (tablePath virt) = some pt :=
        (hshort root hroot _ (tablePath_length virt)).trans hpt
      rw [show pathOf virt = tablePath virt ++ [ptIndex virt] from rfl, wordsOn_snoc (tablePath virt) hpt' (ptIndex virt), tables_setAt_self]
    have hleaf : raw.getLsbD b = attr.getLsbD b := by
      rw [getLsbD_setEntry _ _ _ b (by omega), if_neg (by omega)]
    rw [hwords, all_append, all_cons, all_nil, Bool.and_true, hleaf, Bool.and_comm]
    cases hbit : attr.getLsbD b with
    | false => rw [Bool.false_and, Bool.false_and]
    | true => rw [descend_attribute hroot hattr hb hbit (tablePath virt) hwf (walk_nil _ _) hlen hsize hdesc]
  · rw [hother root hroot v (.inl hv), translate_eq_walk, translate_eq_walk]
    exact hext.values root hroot _ rfl
  · obtain ⟨x, hx⟩ := Option.isSome_iff_exists.mp hmapped
    rw [translate_eq_walk] at hx
    have hx1 : walk pg1.entry root (pathOf v) = some x := (hext.values root hroot _ rfl).trans hx
    have hoff : ¬ pathOf virt <+: pathOf v := by
      intro hpre
      exact hv ((pathOf_eq_iff v virt).mp (hpre.eq_of_length rfl).symm)
    rw [wordsOn_setAt hext.wf hroot hpt raw (pathOf_length v).le hx1 hoff]
    exact wordsOn_extended hext hroot (pathOf_length v).le hx

end

/-! ## Sequences of calls -/

/-- The arguments of a call of `vmm_mapPage`. -/
structure MapCall where
  phys : PageWord
  virt : PageWord
  attr : PageWord

def MapCall.run (pml4 : Nat) (pg : Paging) (c : MapCall) : Except Halt Paging := vmmMapPage pg pml4 c.phys c.virt c.attr

/-- A sequence of calls. -/
def runMaps (pml4 : Nat) (pg : Paging) (calls : List MapCall) : Except Halt Paging := calls.foldlM (MapCall.run pml4) pg

/-- The addresses are page aligned, and the attributes contain `PA_PRESENT`. -/
def MapCall.Allowed (c : MapCall) : Prop := c.phys.toNat % pageSize = 0 ∧ c.virt.toNat % pageSize = 0 ∧ c.attr &&& paPresent = paPresent

/-- The permissions of the page are those of the attributes. -/
def PermissionsAs (pg : Paging) (pml4 : Nat) (virt attr : PageWord) : Prop :=
  effectiveReadWrite pg pml4 virt = entryReadWrite attr ∧ effectiveSupervisor pg pml4 virt = entrySupervisor attr

/-- The entries for the tables of a page that are there grant what the attributes ask for. -/
def TablesGrant (pg : Paging) (pml4 : Nat) (virt attr : PageWord) : Prop :=
  ∀ raw ∈ pg.presentOn pml4 (tablePath virt),
    (entryReadWrite attr = true → entryReadWrite raw = true) ∧ (entrySupervisor attr = true → entrySupervisor raw = true)

/-- A sequence of calls keeps the pages that it does not map, with their permissions. -/
theorem runMaps_kept (calls : List MapCall) {pg pg' : Paging} (hwf : WellFormedIn pg {pml4})
    (hsize : pg.pm.bitmapSize ≤ 2 ^ 22) (hallowed : ∀ d ∈ calls, d.Allowed) (hrun : runMaps pml4 pg calls = .ok pg') :
    WellFormedIn pg' {pml4} ∧ pg'.pm.bitmapSize ≤ 2 ^ 22 ∧
      ∀ v, (∀ d ∈ calls, pageOf d.virt ≠ pageOf v) → (translate pg pml4 v).isSome = true →
        translate pg' pml4 v = translate pg pml4 v ∧ pg'.wordsOn pml4 (pathOf v) = pg.wordsOn pml4 (pathOf v) := by
  induction calls generalizing pg with
  | nil =>
    cases hrun
    exact ⟨hwf, hsize, fun _ _ _ => ⟨rfl, rfl⟩⟩
  | cons d calls ih =>
    obtain ⟨pg1, hcall, hrest⟩ := bind_eq_ok.mp hrun
    obtain ⟨-, hvirt, hattr⟩ := hallowed d mem_cons_self
    have hgrant := vmmMapPage_granted hwf (Set.mem_singleton pml4) hvirt (paPresent_bit hattr) hsize hcall
    obtain ⟨hwf', hsize', hkept⟩ := ih hgrant.wf (hgrant.size.trans_le hsize) (fun e he => hallowed e (.tail d he)) hrest
    refine ⟨hwf', hsize', fun v hoff hmapped => ?_⟩
    obtain ⟨htr, hwords⟩ := hgrant.other v (hoff d mem_cons_self).symm hmapped
    rw [← htr] at hmapped
    obtain ⟨htr', hwords'⟩ := hkept v (fun e he => hoff e (.tail d he)) hmapped
    exact ⟨htr'.trans htr, hwords'.trans hwords⟩

/-- Mapped permissions and what comes of them. After any sequence of calls in which `c` is the last one that maps its page, the page
is present, and its effective permissions are those `c` asked for exactly when the entries for its tables that were there before
`c` grant them. -/
theorem mapped_permissions_iff {pg pg' : Paging} {pml4 : Nat} (hwf : WellFormed pg pml4) (hsize : pg.pm.bitmapSize ≤ 2 ^ 22)
    (before after : List MapCall) (c : MapCall) (hallowed : ∀ d ∈ before ++ c :: after, d.Allowed)
    (hlast : ∀ d ∈ after, pageOf d.virt ≠ pageOf c.virt) (hrun : runMaps pml4 pg (before ++ c :: after) = .ok pg') :
    ∃ pg₁, runMaps pml4 pg before = .ok pg₁ ∧ (translate pg' pml4 c.virt).isSome = true ∧
      (PermissionsAs pg' pml4 c.virt c.attr ↔ TablesGrant pg₁ pml4 c.virt c.attr) := by
  rw [runMaps, List.foldlM_append] at hrun
  obtain ⟨pg₁, hbefore, hrest⟩ := bind_eq_ok.mp hrun
  obtain ⟨pg2, hcall, hafter⟩ := bind_eq_ok.mp hrest
  obtain ⟨hwf1, hsize₁, -⟩ := runMaps_kept before ((wellFormedIn_singleton pg pml4).mpr hwf) hsize
    (fun d hd => hallowed d (List.mem_append_left _ hd)) hbefore
  obtain ⟨-, hvirt, hattr⟩ := hallowed c (List.mem_append_right _ List.mem_cons_self)
  have hgrant := vmmMapPage_granted hwf1 (Set.mem_singleton pml4) hvirt (paPresent_bit hattr) hsize₁ hcall
  obtain ⟨-, -, hkept⟩ := runMaps_kept after hgrant.wf (hgrant.size.trans_le hsize₁)
    (fun d hd => hallowed d (List.mem_append_right _ (.tail c hd))) hafter
  obtain ⟨htr, hwords⟩ := hkept c.virt hlast hgrant.present
  have hbit : ∀ b < 12, (pg'.wordsOn pml4 (pathOf c.virt)).all (·.getLsbD b) = c.attr.getLsbD b ↔
      ∀ raw ∈ pg₁.presentOn pml4 (tablePath c.virt), c.attr.getLsbD b = true → raw.getLsbD b = true := by
    intro b hb
    rw [hwords, hgrant.self b hb]
    cases c.attr.getLsbD b <;> simp
  refine ⟨pg₁, hbefore, by rw [htr]; exact hgrant.present, ?_⟩
  constructor
  · rintro ⟨hrw, hus⟩ raw hraw
    exact ⟨(hbit 1 (by decide)).mp hrw raw hraw, (hbit 2 (by decide)).mp hus raw hraw⟩
  · intro hall
    exact ⟨(hbit 1 (by decide)).mpr fun raw hraw => (hall raw hraw).1, (hbit 2 (by decide)).mpr fun raw hraw => (hall raw hraw).2⟩

/-- A page of the kernel, between two of the user. -/
theorem mapped_permissions_read : ∃ pg', runMaps 0x3000 examplePaging [⟨0x9000, 0x401000, 7⟩, ⟨0xA000, 0x400000, 3⟩, ⟨0xB000, 0x402000, 7⟩] = .ok pg' ∧
    PermissionsAs pg' 0x3000 0x400000 3 := by
  refine exists_ok (by decide) fun pg' hok => ?_
  obtain ⟨pg₁, hbefore, -, hiff⟩ := mapped_permissions_iff (wellFormed_empty (by decide)) (by decide)
    [⟨0x9000, 0x401000, 7⟩] [⟨0xB000, 0x402000, 7⟩] ⟨0xA000, 0x400000, 3⟩ (by simp [MapCall.Allowed, pageSize]; decide) (by simp; decide) hok
  have hwords : (runMaps 0x3000 examplePaging [⟨0x9000, 0x401000, 7⟩]).map (fun pg => pg.presentOn 0x3000 (tablePath 0x400000)) =
      .ok [0x4007, 0x5007, 0x6007] := by decide +kernel
  rw [show runMaps 0x3000 examplePaging _ = _ from hbefore] at hwords
  refine hiff.mpr fun raw hraw => ?_
  rw [show pg₁.presentOn 0x3000 _ = _ from Except.ok.inj hwords] at hraw
  simp only [List.mem_cons, List.not_mem_nil, or_false] at hraw
  rcases hraw with rfl | rfl | rfl <;> decide

/-- A page of the user in the tables of a page of the kernel is not accessible to the user. -/
theorem user_page_in_kernel_tables : WellFormed examplePaging 0x3000 ∧
    ∃ pg', runMaps 0x3000 examplePaging [⟨0x9000, 0x401000, vmmKernelAttributes⟩, ⟨0xA000, 0x400000, vmmUserAttributes⟩] = .ok pg' ∧
      translate pg' 0x3000 0x400000 = some 0xA000 ∧ entrySupervisor vmmUserAttributes = true ∧
      effectiveSupervisor pg' 0x3000 0x400000 = false := by
  have hrun : (runMaps 0x3000 examplePaging [⟨0x9000, 0x401000, vmmKernelAttributes⟩, ⟨0xA000, 0x400000, vmmUserAttributes⟩]).map
      (fun pg => (translate pg 0x3000 0x400000, effectiveSupervisor pg 0x3000 0x400000)) = .ok (some 0xA000, false) := by decide +kernel
  obtain ⟨pg', hok, hvalues⟩ := map_eq_ok hrun
  obtain ⟨htr, hus⟩ := Prod.mk.inj hvalues
  exact ⟨wellFormed_empty (by decide), pg', hok, htr, by decide, hus⟩

end OmegaOS
