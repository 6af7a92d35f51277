import OmegaOS.AddressSpace
import OmegaOS.Theorems.PageMap

/-!
# Isolation of address spaces

`vmm_createAddressSpace` copies the parent's root, so the new address space shares every table below it that is already there.
Whether the stack of a new process is its own depends on whether its parent had a table for the stack's part of the address space.
-/

namespace OmegaOS

open Radix X86 List Function

variable {pg pg' : Paging} {j parent pml4 process tmp i : Nat} {roots : Set Nat} {σ σ' : Sched} {entry : Word}
  {priority : ProcessPriority} {virt : PageWord}

/-- The roots of the address spaces of the live processes. -/
def Sched.spaces (σ : Sched) : Set Nat := { r | ∃ q ∈ σ.tree, (σ.procs q).pml4 = r }

/-- The first address of a page of the user stack. -/
def stackPage (i : Nat) : PageWord := userStackStart + BitVec.ofNat 64 (i * pageSize)

/-- The pages of the user stack. -/
def userStackPages : Nat := userStackSize / pageSize

/-- The address spaces between two calls: their tables are coherent and in used frames, the frames are below the bound of what an
entry can hold, and what is mapped as a stack is in used frames. -/
structure SpacesOk (pg : Paging) (σ : Sched) : Prop where
  wf : WellFormedIn pg σ.spaces
  memory : pg.pm.bitmapSize ≤ 2 ^ 22
  stack : ∀ r ∈ σ.spaces, ∀ i < userStackPages, ∀ f, translate pg r (stackPage i) = some f → pg.pm.used (f / pageSize) = true

/-- The creation of `process` left the other processes alone: their translations are the same but for the page of the new root, and
the frames of the new stack are on none of their stacks. -/
structure Isolated (pg : Paging) (σ : Sched) (pg' : Paging) (σ' : Sched) (process : Nat) : Prop where
  kept : ∀ q ∈ σ.tree, ∀ v, pageOf v ≠ pageOf (BitVec.ofNat 64 (σ'.procs process).pml4) →
    virt2phys pg' (σ.procs q).pml4 v = virt2phys pg (σ.procs q).pml4 v
  stack : ∀ q ∈ σ.tree, ∀ i < userStackPages, ∀ j < userStackPages,
    virt2phys pg' (σ'.procs process).pml4 (stackPage i) ≠ null ∧
      virt2phys pg' (σ'.procs process).pml4 (stackPage i) ≠ virt2phys pg' (σ.procs q).pml4 (stackPage j)

/-! ## New pages -/

theorem vmmUserAttributes_present : vmmUserAttributes.getLsbD 0 = true := by decide

theorem WellFormedIn.allocated (h : WellFormedIn pg roots) {pm : Pmm}
    (hused : ∀ f, pg.pm.used f = true → pm.used f = true) : WellFormedIn { pg with pm := pm } roots :=
  ⟨h.coherent, fun t ht => hused _ (h.used t ht)⟩

theorem toNat_frame {frame : Nat} (h : frame < 2 ^ 40) : (BitVec.ofNat 64 frame).toNat = frame := by
  rw [BitVec.toNat_ofNat]
  exact Nat.mod_eq_of_lt (h.trans (by decide))

/-- What a frame fresh from the allocator is. -/
structure FreshFrame (pm pm' : Pmm) (frame : Nat) : Prop where
  aligned : frame % pageSize = 0
  lt : frame < 2 ^ 40
  clear : pm.used (frame / pageSize) = false
  set : pm'.used (frame / pageSize) = true
  used : ∀ f, pm.used f = true → pm'.used f = true
  size : pm'.bitmapSize = pm.bitmapSize

theorem pmmGetFrame_freshFrame {pm : Pmm} (hsize : pm.bitmapSize ≤ 2 ^ 22) (hne : (pmmGetFrame pm).1 ≠ null) :
    FreshFrame pm (pmmGetFrame pm).2 (pmmGetFrame pm).1 := by
  obtain ⟨haligned, hclear, hset, hused⟩ := pmmGetFrame_fresh (Prod.mk.eta).symm hne
  exact ⟨haligned, pmmGetFrame_lt hsize hne, hclear, hset, hused, pmmGetFrames_bitmapSize pm 1⟩

/-- A page mapped to a new frame. -/
structure PageCreated (pg pg' : Paging) (roots : Set Nat) (root : Nat) (virt : PageWord) (frame : Nat) : Prop extends
    Mapped pg pg' roots root virt frame where
  frameNeNull : frame ≠ null
  frameClear : pg.pm.used (frame / pageSize) = false
  frameSet : pg'.pm.used (frame / pageSize) = true
  frameLt : frame < 2 ^ 40
  frameNotTable : ¬ IsTableOf pg'.entry roots 4 frame

section

variable {root frame : Nat} (hwf : WellFormedIn pg roots) (hroot : root ∈ roots) (hsize : pg.pm.bitmapSize ≤ 2 ^ 22)
include hwf hroot hsize

/-- `vmm_createPage` maps a frame fresh from the allocator. -/
theorem vmmCreatePage_created (hvirt : (pmmGetFrame pg.pm).1 ≠ null → virt.toNat % pageSize = 0)
    (h : vmmCreatePage pg root virt vmmUserAttributes = .ok (frame, pg')) (hne : frame ≠ null) :
    frame = (pmmGetFrame pg.pm).1 ∧ PageCreated pg pg' roots root virt frame := by
  rw [vmmCreatePage] at h
  by_cases hnull : (pmmGetFrame pg.pm).1 = null
  · simp only [hnull, if_true] at h
    exact absurd (congrArg Prod.fst (Except.ok.inj h)).symm hne
  simp only [if_neg hnull] at h
  obtain ⟨pg1, hmap, hret⟩ := bind_eq_ok.mp h
  cases hret
  have hfresh := pmmGetFrame_freshFrame hsize hne
  have hm := vmmMapPage_mapped (hwf.allocated hfresh.used) hroot (hvirt hne) (by rw [toNat_frame hfresh.lt]; exact hfresh.aligned)
    (by rw [toNat_frame hfresh.lt]; exact hfresh.lt) vmmUserAttributes_present (hfresh.size.trans_le hsize) hmap
  rw [toNat_frame hfresh.lt] at hm
  have hclear : ∀ f, (pmmGetFrame pg.pm).2.used f = false → pg.pm.used f = false := by
    intro f hf
    by_contra hu
    simp [hfresh.used f (by simpa using hu)] at hf
  refine ⟨rfl, ⟨⟨hm.wf, fun f hf => hm.used f (hfresh.used f hf), hm.size.trans hfresh.size,
    fun t ht => (hm.fresh t ht).imp_right (hclear _), hm.tables, hm.off⟩, hm.self, hm.either, hm.other, hm.priv⟩, hne, hfresh.clear,
    hm.used _ hfresh.set, hfresh.lt, fun ht => ?_⟩
  rcases hm.fresh _ ht with h | h
  · have hu := hwf.used _ h
    simp [hfresh.clear] at hu
  · have hset := h
    simp [hfresh.set] at hset

/-- The page is the one at the address of the frame. -/
theorem vmmCreateIdentityPage_created (h : vmmCreateIdentityPage pg root vmmUserAttributes = .ok (frame, pg')) (hne : frame ≠ null) :
    PageCreated pg pg' roots root (BitVec.ofNat 64 frame) frame := by
  have hpage : vmmCreatePage pg root (BitVec.ofNat 64 (pmmGetFrame pg.pm).1) vmmUserAttributes = .ok (frame, pg') := h
  have haligned : (pmmGetFrame pg.pm).1 ≠ null → (BitVec.ofNat 64 (pmmGetFrame pg.pm).1).toNat % pageSize = 0 := by
    intro hnull
    have hfresh := pmmGetFrame_freshFrame hsize hnull
    rw [toNat_frame hfresh.lt]
    exact hfresh.aligned
  obtain ⟨rfl, hcreated⟩ := vmmCreatePage_created hwf hroot hsize haligned hpage hne
  exact hcreated

/-! ## The stack -/

omit hwf hroot hsize

/-- The indices that lead to the last-level table of the user stack: all of its pages are in one. -/
def stackPath : List PageWord := tablePath userStackStart

theorem tablePath_stackPage (hj : j < userStackPages) : tablePath (stackPage j) = stackPath := by
  revert j
  decide

theorem stackPage_aligned (hj : j < userStackPages) : (stackPage j).toNat % pageSize = 0 := by
  revert j
  decide

theorem pageOf_stackPage_ne {k : Nat} (hj : j < userStackPages) (hk : k < userStackPages) (hne : j ≠ k) :
    pageOf (stackPage j) ≠ pageOf (stackPage k) := by
  have h : ∀ j < userStackPages, ∀ k < userStackPages, j ≠ k → pageOf (stackPage j) ≠ pageOf (stackPage k) := by decide
  exact h j hj k hk hne

/-- The pages `i` to `i + n` of the stack were created. -/
structure StackCreated (pg pg' : Paging) (roots : Set Nat) (root i n : Nat) : Prop where
  wf : WellFormedIn pg' roots
  used : ∀ f, pg.pm.used f = true → pg'.pm.used f = true
  size : pg'.pm.bitmapSize = pg.pm.bitmapSize
  tables : ∀ s ∈ roots, ∀ p t, p.length < 4 → walk pg.entry s p = some t → walk pg'.entry s p = some t
  other : ∀ s ∈ roots, ∀ v, (∀ j, i ≤ j → j < i + n → pageOf v ≠ pageOf (stackPage j)) → translate pg' s v = translate pg s v
  priv : ∀ s ∈ roots, s ≠ root → PrivatePath pg root s stackPath → ∀ v, translate pg' s v = translate pg s v
  new : ∀ j, i ≤ j → j < i + n → ∃ f, translate pg' root (stackPage j) = some f ∧ f ≠ null ∧ pg.pm.used (f / pageSize) = false
  either : ∀ s ∈ roots, ∀ v f, translate pg' s v = some f → translate pg s v = some f ∨ pg'.pm.used (f / pageSize) = true

theorem stackCreated_nil (hwf : WellFormedIn pg roots) (root i : Nat) : StackCreated pg pg roots root i 0 :=
  ⟨hwf, fun _ h => h, rfl, fun _ _ _ _ _ h => h, fun _ _ _ _ => rfl, fun _ _ _ _ _ => rfl, fun _ _ _ => by omega, fun _ _ _ _ h => .inl h⟩

/-- A page more makes the stack longer. -/
theorem PageCreated.stack {pg1 : Paging} {n : Nat} (hroot : root ∈ roots) (hin : i + (n + 1) ≤ userStackPages)
    (h1 : PageCreated pg pg1 roots root (stackPage i) frame) (h2 : StackCreated pg1 pg' roots root (i + 1) n) :
    StackCreated pg pg' roots root i (n + 1) where
  wf := h2.wf
  used := fun f hf => h2.used f (h1.used f hf)
  size := h2.size.trans h1.size
  tables := fun s hs p t hp h => h2.tables s hs p t hp (h1.tables s hs p t hp h)
  other := by
    intro s hs v hv
    rw [h2.other s hs v fun j hj hjn => hv j (by omega) (by omega)]
    exact h1.other s hs v (hv i (by omega) (by omega))
  priv := by
    intro s hs hne hpriv v
    have hpath : tablePath (stackPage i) = stackPath := tablePath_stackPage (by omega)
    obtain ⟨hpriv1, hsame⟩ := h1.priv s hs hne (hpath ▸ hpriv)
    rw [h2.priv s hs hne (hpath ▸ hpriv1) v]
    by_cases hv : pageOf v = pageOf (stackPage i)
    · rwa [translate_of_pageOf_eq pg1 s hv, translate_of_pageOf_eq pg s hv]
    · exact h1.other s hs v hv
  new := by
    intro j hij hjn
    by_cases hj : j = i
    · subst hj
      refine ⟨frame, ?_, h1.frameNeNull, h1.frameClear⟩
      rw [h2.other root hroot _ fun k hk hkn => pageOf_stackPage_ne (by omega) (by omega) (by omega)]
      exact h1.self
    · obtain ⟨f, htr, hne, hclear⟩ := h2.new j (by omega) (by omega)
      refine ⟨f, htr, hne, ?_⟩
      by_contra hu
      simp [h1.used _ (by simpa using hu)] at hclear
  either := by
    intro s hs v f hf
    rcases h2.either s hs v f hf with h | h
    · by_cases hv : pageOf v = pageOf (stackPage i)
      · rw [translate_of_pageOf_eq pg1 s hv] at h
        rw [translate_of_pageOf_eq pg s hv]
        rcases h1.either s hs with he | he
        · exact .inl (he ▸ h)
        · obtain rfl := Option.some.inj (he.symm.trans h)
          exact .inr (h2.used _ h1.frameSet)
      · rw [h1.other s hs v hv] at h
        exact .inl h
    · exact .inr h

theorem createPagesFrom_created (hroot : root ∈ roots) (n : Nat) (hwf : WellFormedIn pg roots)
    (hsize : pg.pm.bitmapSize ≤ 2 ^ 22) {addr last : Nat} (hin : i + n ≤ userStackPages)
    (h : createPagesFrom pg root userStackStart vmmUserAttributes i addr n = .ok (last, pg')) (hne : last ≠ null) :
    StackCreated pg pg' roots root i n := by
  induction n generalizing pg i addr with
  | zero =>
    cases h
    exact stackCreated_nil hwf root i
  | succ n ih =>
    rw [createPagesFrom] at h
    obtain ⟨⟨addr1, pg1⟩, hcreate, hrest⟩ := bind_eq_ok.mp h
    by_cases hnull : addr1 = null
    · simp only [hnull, if_true] at hrest
      exact absurd (congrArg Prod.fst (Except.ok.inj hrest)).symm hne
    · simp only [if_neg hnull] at hrest
      obtain ⟨-, h1⟩ := vmmCreatePage_created hwf hroot hsize (fun _ => stackPage_aligned (by omega)) hcreate hnull
      exact h1.stack hroot hin (ih h1.wf (h1.size.trans_le hsize) (by omega) hrest)

end

/-! ## The new root -/

/-- The root `pml4` was created for a child of `parent`. -/
structure SpaceCreated (pg pg' : Paging) (roots : Set Nat) (parent pml4 : Nat) : Prop where
  wf : WellFormedIn pg' (insert pml4 roots)
  used : ∀ f, pg.pm.used f = true → pg'.pm.used f = true
  size : pg'.pm.bitmapSize = pg.pm.bitmapSize
  lt : pml4 < 2 ^ 40
  fresh : pml4 ∉ roots
  other : ∀ s ∈ roots, ∀ v, pageOf v ≠ pageOf (BitVec.ofNat 64 pml4) → translate pg' s v = translate pg s v
  copy : ∀ p, p ≠ [] → p.length ≤ 4 → walk pg'.entry pml4 p = walk pg'.entry parent p
  stackTable : walk pg'.entry parent [pml4Index userStackStart] = walk pg.entry parent [pml4Index userStackStart]

/-- A frame address does not lie in the part of the address space that the stack is in. -/
theorem pml4Index_frame {frame : Nat} (h : frame < 2 ^ 40) : pml4Index userStackStart ≠ pml4Index (BitVec.ofNat 64 frame) := by
  intro he
  have hlt : (pml4Index (BitVec.ofNat 64 frame)).toNat ≤ 1 := by
    rw [pml4Index, BitVec.toNat_and, BitVec.toNat_ushiftRight, toNat_frame h, Nat.shiftRight_eq_div_pow]
    exact Nat.and_le_left.trans (by omega)
  rw [← he] at hlt
  exact absurd hlt (by decide)

/-- `vmm_createAddressSpace` adds a root and changes no other. -/
theorem vmmCreateAddressSpace_created (hwf : WellFormedIn pg roots)
    (hparent : parent ∈ roots) (hsize : pg.pm.bitmapSize ≤ 2 ^ 22) (h : vmmCreateAddressSpace pg parent = .ok (pml4, pg'))
    (hne : pml4 ≠ null) : SpaceCreated pg pg' roots parent pml4 := by
  rw [vmmCreateAddressSpace] at h
  obtain ⟨⟨root, pg1⟩, hpage, hcopy⟩ := bind_eq_ok.mp h
  by_cases hnull : root = null
  · simp only [hnull, if_true] at hcopy
    exact absurd (congrArg Prod.fst (Except.ok.inj hcopy)).symm hne
  simp only [if_neg hnull] at hcopy
  obtain ⟨rfl, rfl⟩ := Prod.mk.inj (Except.ok.inj hcopy)
  have hm := vmmCreateIdentityPage_created hwf hparent hsize hpage hnull
  -- the copy: the new root has the parent's entries, and every other table its own
  let pg2 : Paging := { pg1 with tables := update pg1.tables root (pg1.tables parent) }
  have hcopied : ∀ j, pg2.entry root j = pg1.entry parent j := by
    intro j
    simp [Paging.entry, pg2]
  have hsame : ∀ t j, t ≠ root → pg2.entry t j = pg1.entry t j := by
    intro t j ht
    simp [Paging.entry, pg2, update_of_ne ht]
  have hfresh := hm.frameNotTable
  have hold : ∀ s ∈ roots, ∀ p : List PageWord, p.length ≤ 4 → walk pg2.entry s p = walk pg1.entry s p :=
    fun s hs p hp => walk_copy_root hfresh hsame hs p hp
  have hnew : ∀ p : List PageWord, p ≠ [] → p.length ≤ 4 → walk pg2.entry root p = walk pg1.entry parent p :=
    fun p hne hp => walk_copy hparent hfresh hcopied hsame (by decide) p hp hne
  refine ⟨⟨Coherent.copy_root hparent hfresh hcopied hsame hm.wf.coherent, ?_⟩, hm.used, hm.size, hm.frameLt, fun hr => ?_,
    fun s hs v hv => ?_, fun p hp hlen => ?_, ?_⟩
  · rintro t ⟨s, hs, p, hp, ht⟩
    rcases Set.mem_insert_iff.mp hs with rfl | hs
    · by_cases hnil : p = []
      · subst hnil
        cases ht
        exact hm.frameSet
      · rw [hnew p hnil (by omega)] at ht
        exact hm.wf.used t ⟨parent, hparent, p, hp, ht⟩
    · rw [hold s hs p (by omega)] at ht
      exact hm.wf.used t ⟨s, hs, p, hp, ht⟩
  · exact hfresh ⟨root, hr, [], by decide, rfl⟩
  · rw [translate_eq_walk, show walk (Paging.entry _) s (pathOf v) = walk pg1.entry s (pathOf v) from hold s hs _ (le_refl 4),
      ← translate_eq_walk]
    exact hm.other s hs v hv
  · exact (hnew p hp hlen).trans (hold parent hparent p hlen).symm
  · refine (hold parent hparent _ (by decide)).trans (hm.off parent hparent _ (by decide) fun hp => ?_)
    exact pml4Index_frame hm.frameLt (cons_prefix_cons.mp hp).1

/-- The page of a root is not a page of the stack. -/
theorem SpaceCreated.page_ne (h : SpaceCreated pg pg' roots parent pml4) (hj : j < userStackPages) : pageOf (stackPage j) ≠ pageOf
    (BitVec.ofNat 64 pml4) := by
  intro he
  have hpath := (pathOf_eq_iff _ _).mpr he
  have hindex := head_eq_of_cons_eq (tablePath_stackPage hj)
  exact pml4Index_frame h.lt (hindex.symm.trans (head_eq_of_cons_eq hpath))

/-! ## The new process -/

theorem processCreate_spaces (hnew : process ∉ σ.tree) (h : processCreate σ process pml4 tmp entry priority = .ok σ') :
    (σ'.procs process).pml4 = pml4 ∧ σ'.spaces = insert pml4 σ.spaces := by
  rw [processCreate, schedulerAdd] at h
  obtain ⟨⟨nodes, q⟩, -, hret⟩ := bind_eq_ok.mp h
  cases hret
  have hself : ((insertProcess σ process pml4 entry priority).procs process).pml4 = pml4 := by
    simp [insertProcess, getNextID, createProcess]
  have hother : ∀ q ∈ σ.tree, ((insertProcess σ process pml4 entry priority).procs q).pml4 = (σ.procs q).pml4 := by
    intro q hq
    have hne : q ≠ process := fun e => hnew (e ▸ hq)
    simp [insertProcess, getNextID, update_of_ne hne]
  have htree : (insertProcess σ process pml4 entry priority).tree = σ.tree ++ [process] := rfl
  refine ⟨hself, Set.ext fun r => ?_⟩
  rw [htree]
  constructor
  · rintro ⟨q, hq, rfl⟩
    rcases mem_append.mp hq with hq | hq
    · exact .inr ⟨q, hq, (hother q hq).symm⟩
    · obtain rfl := mem_singleton.mp hq
      exact .inl hself
  · rintro (rfl | ⟨q, hq, rfl⟩)
    · exact ⟨process, by simp, hself⟩
    · exact ⟨q, by simp [hq], hother q hq⟩

/-- A successful `process_create` made a root, then a stack, then the process. -/
theorem processCreateIn_ok (h : processCreateIn pg σ parent process tmp entry priority = .ok (pg', some σ')) :
    ∃ pml4 addr pg1, vmmCreateAddressSpace pg (σ.procs parent).pml4 = .ok (pml4, pg1) ∧ pml4 ≠ null ∧
      vmmCreatePages pg1 pml4 userStackStart userStackPages vmmUserAttributes = .ok (addr, pg') ∧ addr ≠ null ∧
      processCreate σ process pml4 tmp entry priority = .ok σ' := by
  rw [processCreateIn] at h
  obtain ⟨⟨pml4, pg1⟩, hspace, h⟩ := bind_eq_ok.mp h
  by_cases hpml4 : pml4 = null
  · simp only [hpml4, if_true] at h
    cases h
  simp only [if_neg hpml4] at h
  obtain ⟨⟨addr, pg2⟩, hpages, h⟩ := bind_eq_ok.mp h
  by_cases haddr : addr = null
  · simp only [haddr, if_true] at h
    cases h
  simp only [if_neg haddr] at h
  by_cases hprocess : process = null
  · simp only [hprocess, if_true] at h
    cases h
  simp only [if_neg hprocess] at h
  obtain ⟨σ1, hcreate, h⟩ := bind_eq_ok.mp h
  obtain ⟨rfl, hσ⟩ := Prod.mk.inj (Except.ok.inj h)
  cases hσ
  exact ⟨pml4, addr, pg1, hspace, hpml4, hpages, haddr, hcreate⟩

section

variable {pg1 : Paging} (hok : SpacesOk pg σ) (hspace : SpaceCreated pg pg1 σ.spaces parent pml4)
  (hstack : StackCreated pg1 pg' (insert pml4 σ.spaces) pml4 0 userStackPages)
include hspace hstack

/-- A table for the stack in the parent is the child's table too, so that the two have one stack. -/
theorem shared_created (hparent : parent ∈ σ.spaces) {table : Nat} (hsome : pg.entry parent (pml4Index userStackStart) = some table) :
    virt2phys pg' pml4 (stackPage 0) = virt2phys pg' parent (stackPage 0) := by
  have hbefore : walk pg1.entry parent [pml4Index userStackStart] = some table := by
    rw [hspace.stackTable, walk_cons, hsome]
    rfl
  have hchild : walk pg1.entry pml4 [pml4Index userStackStart] = some table := by
    rw [hspace.copy _ (by simp) (by decide), hbefore]
  have hafter := hstack.tables parent (Set.mem_insert_of_mem _ hparent) _ _ (by decide) hbefore
  have hafter' := hstack.tables pml4 (Set.mem_insert _ _) _ _ (by decide) hchild
  have hsplit : pathOf (stackPage 0) = [pml4Index userStackStart] ++ (pathOf (stackPage 0)).tail := by decide
  rw [virt2phys, virt2phys, translate_eq_walk, translate_eq_walk, hsplit, walk_append, walk_append, hafter, hafter']

include hok

/-- The address spaces are well formed after `process_create` as they were before. -/
theorem spacesOk_created (hparent : parent ∈ σ.spaces) (hspaces : σ'.spaces = insert pml4 σ.spaces) : SpacesOk pg' σ' := by
  refine ⟨hspaces ▸ hstack.wf, (hstack.size.trans hspace.size).trans_le hok.memory, fun r hr i hi f hf => ?_⟩
  rw [hspaces] at hr
  rcases hstack.either r hr _ f hf with h | h
  · -- a translation from before: of an old root, or of the parent through the new one
    have hold : ∃ s ∈ σ.spaces, translate pg1 s (stackPage i) = some f := by
      rcases Set.mem_insert_iff.mp hr with rfl | hr
      · refine ⟨parent, hparent, ?_⟩
        rwa [translate_eq_walk, ← hspace.copy (pathOf (stackPage i)) (cons_ne_nil _ _) (le_refl 4), ← translate_eq_walk]
      · exact ⟨r, hr, h⟩
    obtain ⟨s, hs, h⟩ := hold
    rw [hspace.other s hs _ (hspace.page_ne hi)] at h
    exact hstack.used _ (hspace.used _ (hok.stack s hs i hi f h))
  · exact h

/-- With no table for the stack in the parent, the stack's tables are new and private. -/
theorem isolated_created (hself : (σ'.procs process).pml4 = pml4)
    (hnone : pg.entry parent (pml4Index userStackStart) = none) : Isolated pg σ pg' σ' process := by
  have hpath : walk pg1.entry pml4 [pml4Index userStackStart] = none := by
    rw [hspace.copy _ (by simp) (by decide), hspace.stackTable, walk_cons, hnone]
    rfl
  have hpriv : ∀ s, PrivatePath pg1 pml4 s stackPath := by
    intro s p hne hp t ht
    obtain ⟨i, p, rfl⟩ := exists_cons_of_ne_nil hne
    obtain rfl : i = pml4Index userStackStart := (cons_prefix_cons.mp hp).1
    rw [walk_none_of_initial (by simp) hpath] at ht
    cases ht
  have hkeep : ∀ s ∈ σ.spaces, ∀ v, pageOf v ≠ pageOf (BitVec.ofNat 64 pml4) → translate pg' s v = translate pg s v := by
    intro s hs v hv
    have hne : s ≠ pml4 := fun e => hspace.fresh (e ▸ hs)
    rw [hstack.priv s (Set.mem_insert_of_mem _ hs) hne (hpriv s) v]
    exact hspace.other s hs v hv
  refine ⟨fun q hq v hv => ?_, fun q hq i hi j hj => ?_⟩
  · rw [hself] at hv
    rw [virt2phys, virt2phys, hkeep _ ⟨q, hq, rfl⟩ v hv]
  · obtain ⟨f, htr, hne, hclear⟩ := hstack.new i (Nat.zero_le i) (by omega)
    rw [hself, virt2phys, htr, virt2phys, hkeep _ ⟨q, hq, rfl⟩ _ (hspace.page_ne hj)]
    refine ⟨hne, ?_⟩
    cases hg : translate pg (σ.procs q).pml4 (stackPage j) with
    | none => exact hne
    | some g =>
      rintro rfl
      have hu := hspace.used _ (hok.stack _ ⟨q, hq, rfl⟩ j hj _ hg)
      simp [Option.getD_some, hclear] at hu

end

/-- What a successful `process_create` did to the address spaces. -/
theorem processCreateIn_created (hok : SpacesOk pg σ) (hparent : parent ∈ σ.tree) (hnew : process ∉ σ.tree)
    (h : processCreateIn pg σ parent process tmp entry priority = .ok (pg', some σ')) :
    ∃ pg1, SpaceCreated pg pg1 σ.spaces (σ.procs parent).pml4 (σ'.procs process).pml4 ∧
      StackCreated pg1 pg' (insert (σ'.procs process).pml4 σ.spaces) (σ'.procs process).pml4 0 userStackPages ∧
      σ'.spaces = insert (σ'.procs process).pml4 σ.spaces := by
  obtain ⟨pml4, addr, pg1, hspace, hpml4, hpages, haddr, hcreate⟩ := processCreateIn_ok h
  obtain ⟨rfl, hspaces⟩ := processCreate_spaces hnew hcreate
  have hs := vmmCreateAddressSpace_created hok.wf ⟨parent, hparent, rfl⟩ hok.memory hspace hpml4
  exact ⟨pg1, hs, createPagesFrom_created (Set.mem_insert _ _) userStackPages hs.wf (hs.size.trans_le hok.memory)
    (le_of_eq (zero_add _)) hpages haddr, hspaces⟩

/-- Isolation at process creation. A successful `process_create` leaves the address spaces well formed, and it leaves the other
processes alone exactly when the parent has no table yet for the part of the address space that the user stack is in. -/
theorem processCreate_isolated_iff {pg pg' : Paging} {σ σ' : Sched} {parent process tmp : Nat} {entry : Word}
    {priority : ProcessPriority} (hok : SpacesOk pg σ) (hparent : parent ∈ σ.tree) (hnew : process ∉ σ.tree)
    (h : processCreateIn pg σ parent process tmp entry priority = .ok (pg', some σ')) : SpacesOk pg' σ' ∧
      (Isolated pg σ pg' σ' process ↔ pg.entry (σ.procs parent).pml4 (pml4Index userStackStart) = none) := by
  obtain ⟨pg1, hspace, hstack, hspaces⟩ := processCreateIn_created hok hparent hnew h
  have hroot : (σ.procs parent).pml4 ∈ σ.spaces := ⟨parent, hparent, rfl⟩
  refine ⟨spacesOk_created hok hspace hstack hroot hspaces, fun hiso => ?_, isolated_created hok hspace hstack rfl⟩
  by_contra hsome
  obtain ⟨table, htable⟩ := Option.ne_none_iff_exists'.mp hsome
  exact (hiso.stack parent hparent 0 (by decide) 0 (by decide)).2 (shared_created hspace hstack hroot htable)

/-! ## Two generations of processes -/

/-- Sixty free frames, and the kernel's root, empty, in the frame before them. -/
def rootPaging : Paging :=
  { pm := { bitmap := fun _ => 0xF, bitmapSize := 1, lastFoundBitmap := 0 }, tables := fun _ _ => 0 }

/-- The idle process, at address 1, with the kernel's root. -/
def idleSched : Sched := processInit (fun _ => createProcess 0 0 .idle 0 0 0 0 0) (fun _ => ⟨null, null⟩) 1 0x3000 0x100000

/-- The first `process_create`: the idle process makes the shell, at address 2. -/
def createShell : Except Halt (Paging × Option Sched) := processCreateIn rootPaging idleSched 1 2 9 0x400000 .interactive

theorem rootPaging_entry (t : Nat) (j : PageWord) : rootPaging.entry t j = none := by
  simp [Paging.entry, rootPaging, entryPresent]

theorem idleSched_spaces : idleSched.spaces = {0x3000} := by
  ext r
  simp [Sched.spaces, idleSched, processInit, getNextID, createProcess, eq_comm]

theorem spacesOk_idle : SpacesOk rootPaging idleSched := by
  refine ⟨?_, by decide, fun r _ i _ f hf => ?_⟩
  · rw [idleSched_spaces]
    exact (wellFormedIn_singleton _ _).mpr (wellFormed_empty (by decide))
  · simp [translate_eq_walk, pathOf, walk_cons, rootPaging_entry] at hf

theorem exists_of_isSome {r : Except Halt (Paging × Option Sched)} (h : (r.toOption.bind (·.2)).isSome = true) :
    ∃ pg σ, r = .ok (pg, some σ) := by
  rcases r with _ | ⟨pg, _ | σ⟩
  · cases h
  · cases h
  · exact ⟨pg, σ, rfl⟩

theorem createShell_ok : ∃ pg σ, createShell = .ok (pg, some σ) := by
  have h : (createShell.toOption.bind (·.2)).isSome = true := by decide
  exact exists_of_isSome h

/-- The shell's creation leaves the idle process alone. -/
theorem processCreate_isolated_shell : ∃ pg σ, createShell = .ok (pg, some σ) ∧ Isolated rootPaging idleSched pg σ 2 := by
  obtain ⟨pg, σ, h⟩ := createShell_ok
  exact ⟨pg, σ, h, (processCreate_isolated_iff spacesOk_idle (by decide) (by decide) h).2.mpr (rootPaging_entry _ _)⟩

/-- A process that the shell creates gets the shell's stack: after the second `process_create` the first page of both stacks is one
frame, and not the frame that the shell had there. -/
theorem shell_stack_replaced : ∃ pg σ pg' σ', createShell = .ok (pg, some σ) ∧
    processCreateIn pg σ 2 3 10 0x400000 .interactive = .ok (pg', some σ') ∧ 2 ∈ σ.tree ∧ SpacesOk pg σ ∧
    virt2phys pg' (σ'.procs 3).pml4 (stackPage 0) = virt2phys pg' (σ.procs 2).pml4 (stackPage 0) ∧
    virt2phys pg' (σ.procs 2).pml4 (stackPage 0) ≠ virt2phys pg (σ.procs 2).pml4 (stackPage 0) ∧ ¬ Isolated pg σ pg' σ' 3 := by
  have htree : (createShell.toOption.bind (·.2)).any (fun σ => decide (2 ∈ σ.tree ∧ 3 ∉ σ.tree)) = true := by decide
  have hrun : (createShell.toOption.bind fun r => r.2.bind fun σ =>
      (processCreateIn r.1 σ 2 3 10 0x400000 .interactive).toOption.bind (·.2)).isSome = true := by decide
  obtain ⟨pg, σ, h⟩ := createShell_ok
  rw [h] at htree hrun
  obtain ⟨h2, h3⟩ : 2 ∈ σ.tree ∧ 3 ∉ σ.tree := of_decide_eq_true htree
  obtain ⟨pg', σ', h'⟩ : ∃ pg' σ', processCreateIn pg σ 2 3 10 0x400000 .interactive = .ok (pg', some σ') :=
    exists_of_isSome hrun
  obtain ⟨pg1, hspace, hstack, hspaces⟩ := processCreateIn_created spacesOk_idle (by decide) (by decide) h
  have hok := spacesOk_created spacesOk_idle hspace hstack ⟨1, by decide, rfl⟩ hspaces
  -- the shell has a stack, so a table for it
  obtain ⟨f, htr, -⟩ := hstack.new 0 (le_refl 0) (by decide)
  obtain ⟨pg₂, hspace2, hstack2, -⟩ := processCreateIn_created hok h2 h3 h'
  have hroot : (σ.procs 2).pml4 ∈ σ.spaces := ⟨2, h2, rfl⟩
  obtain ⟨table, htable⟩ : ∃ table, pg.entry (σ.procs 2).pml4 (pml4Index userStackStart) = some table := by
    rw [translate_eq_walk] at htr
    obtain ⟨table, h⟩ := walk_of_initial (p := [pml4Index userStackStart]) (List.prefix_append _ _) htr
    exact ⟨table, by simpa using h⟩
  have hshared := shared_created hspace2 hstack2 hroot htable
  refine ⟨pg, σ, pg', σ', h, h', h2, hok, hshared, ?_, fun hiso => ?_⟩
  · obtain ⟨g, htr', -, hclear⟩ := hstack2.new 0 (le_refl 0) (by decide)
    have hused := hspace2.used _ (hok.stack _ hroot 0 (by decide) f htr)
    rw [← hshared, virt2phys, virt2phys, htr, htr']
    rintro rfl
    rw [Option.getD_some, hclear] at hused
    cases hused
  · exact (hiso.stack 2 h2 0 (by decide) 0 (by decide)).2 hshared

end OmegaOS
