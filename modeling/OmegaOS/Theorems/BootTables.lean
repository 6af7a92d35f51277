import OmegaOS.Theorems.FrameInit
import OmegaOS.Theorems.PageMap

/-!
# The tables that `vmm_init` makes

`vmm_init` maps three ranges to themselves: the memory, the kernel and the framebuffer. Which pages are mapped then is which
addresses the loops go through, and the ends of the loops are rounded by macros that round the other way.
-/

namespace OmegaOS

open Radix List

/-! ## The addresses of the loops -/

theorem mem_pageAddresses {start stop a : Nat} (hstart : start % pageSize = 0) (hstop : stop % pageSize = 0) :
    a ∈ pageAddresses start stop ↔ start ≤ a ∧ a < stop ∧ a % pageSize = 0 := by
  simp only [pageAddresses, mem_map, mem_range]
  unfold pageSize at *
  constructor
  · rintro ⟨i, hi, rfl⟩
    omega
  · rintro ⟨hlo, hhi, ha⟩
    exact ⟨(a - start) / 4096, by omega, by omega⟩

/-- All addresses that `vmm_init` maps, in their order. -/
def bootAddresses (memorySize : Nat) (k : KernelSymbols) (baseAddress bufferSize : Nat) : List Nat :=
  pageAddresses 0 (rndup memorySize pageSize) ++
    (pageAddresses (rndwn k.kernelStart pageSize) (rndup k.kernelEnd pageSize) ++
      pageAddresses (rndwn baseAddress pageSize) (rndup ((rndwn baseAddress pageSize + bufferSize) % 2 ^ 64) pageSize))

/-- The page starts in the range of one of the loops. -/
def InBootRange (memorySize : Nat) (k : KernelSymbols) (baseAddress bufferSize a : Nat) : Prop :=
  a < rndup memorySize pageSize ∨ (rndwn k.kernelStart pageSize ≤ a ∧ a < rndup k.kernelEnd pageSize) ∨
    (rndwn baseAddress pageSize ≤ a ∧ a < rndup ((rndwn baseAddress pageSize + bufferSize) % 2 ^ 64) pageSize)

section

variable {memorySize baseAddress bufferSize a : Nat} {k : KernelSymbols}

theorem mem_bootAddresses : a ∈ bootAddresses memorySize k baseAddress bufferSize ↔
    a % pageSize = 0 ∧ InBootRange memorySize k baseAddress bufferSize a := by
  rw [bootAddresses, mem_append, mem_append, mem_pageAddresses (Nat.zero_mod _) (rndup_mod _),
    mem_pageAddresses (rndwn_mod _) (rndup_mod _), mem_pageAddresses (rndwn_mod _) (rndup_mod _), InBootRange]
  constructor
  · rintro (⟨-, h, hmod⟩ | ⟨hlo, hhi, hmod⟩ | ⟨hlo, hhi, hmod⟩)
    · exact ⟨hmod, .inl h⟩
    · exact ⟨hmod, .inr (.inl ⟨hlo, hhi⟩)⟩
    · exact ⟨hmod, .inr (.inr ⟨hlo, hhi⟩)⟩
  · rintro ⟨hmod, h | ⟨hlo, hhi⟩ | ⟨hlo, hhi⟩⟩
    · exact .inl ⟨Nat.zero_le a, h, hmod⟩
    · exact .inr (.inl ⟨hlo, hhi, hmod⟩)
    · exact .inr (.inr ⟨hlo, hhi, hmod⟩)

/-- The loops stay below the bound of what an entry holds, when the memory, the kernel and the framebuffer do. -/
theorem bootAddresses_lt (hmem : memorySize ≤ 2 ^ 40) (hkernel : k.kernelEnd ≤ 2 ^ 40)
    (hfb : ∀ f, SharesByte f baseAddress bufferSize → f * pageSize < 2 ^ 40)
    (ha : a ∈ bootAddresses memorySize k baseAddress bufferSize) : a < 2 ^ 40 := by
  obtain ⟨-, h | ⟨-, h⟩ | ⟨hlo, hhi⟩⟩ := mem_bootAddresses.mp ha
  · unfold rndup pageSize at h
    split at h <;> omega
  · unfold rndup pageSize at h
    split at h <;> omega
  · by_cases hsize : bufferSize = 0
    · subst hsize
      unfold rndup rndwn pageSize at *
      split at hhi <;> omega
    · have hlast := hfb ((baseAddress + bufferSize - 1) / pageSize) ⟨baseAddress + bufferSize - 1, by omega, by omega, rfl⟩
      unfold rndup rndwn pageSize at *
      split at hhi <;> omega

end

/-! ## Mapping a range -/

/-- What mapping the addresses to themselves does to the pages that an entry can hold. -/
structure IdentityMapped (pg pg' : Paging) (pml4 : Nat) (addrs : List Nat) : Prop where
  wf : WellFormedIn pg' {pml4}
  size : pg'.pm.bitmapSize ≤ 2 ^ 22
  mapped : ∀ f, f * pageSize < 2 ^ 40 → f * pageSize ∈ addrs → translate pg' pml4 (BitVec.ofNat 64 (f * pageSize)) = some (f * pageSize)
  other : ∀ f, f * pageSize < 2 ^ 40 → f * pageSize ∉ addrs →
    translate pg' pml4 (BitVec.ofNat 64 (f * pageSize)) = translate pg pml4 (BitVec.ofNat 64 (f * pageSize))

section

variable {pg pg1 pg' : Paging} {pml4 : Nat} {addrs addrs' : List Nat}

theorem IdentityMapped.refl (hwf : WellFormedIn pg {pml4}) (hsize : pg.pm.bitmapSize ≤ 2 ^ 22) : IdentityMapped pg pg pml4 [] :=
  ⟨hwf, hsize, fun _ _ h => absurd h not_mem_nil, fun _ _ _ => rfl⟩

/-- A later loop keeps what an earlier one mapped. -/
theorem IdentityMapped.trans (h : IdentityMapped pg pg1 pml4 addrs) (h' : IdentityMapped pg1 pg' pml4 addrs') :
    IdentityMapped pg pg' pml4 (addrs ++ addrs') := by
  refine ⟨h'.wf, h'.size, fun f hf hmem => ?_, fun f hf hnot => ?_⟩
  · by_cases hlate : f * pageSize ∈ addrs'
    · exact h'.mapped f hf hlate
    · rw [h'.other f hf hlate]
      exact h.mapped f hf ((mem_append.mp hmem).resolve_right hlate)
  · rw [mem_append, not_or] at hnot
    rw [h'.other f hf hnot.2, h.other f hf hnot.1]

theorem vmmIdentityMapPage_mapped {addr : Nat} {attr : PageWord} (hwf : WellFormedIn pg {pml4}) (hsize : pg.pm.bitmapSize ≤ 2 ^ 22)
    (hattr : attr.getLsbD 0 = true) (halign : addr % pageSize = 0) (hlt : addr < 2 ^ 40)
    (h : vmmIdentityMapPage pg pml4 (BitVec.ofNat 64 addr) attr = .ok pg') : IdentityMapped pg pg' pml4 [addr] := by
  have hnat : (BitVec.ofNat 64 addr).toNat = addr := by
    rw [BitVec.toNat_ofNat]
    exact Nat.mod_eq_of_lt (hlt.trans (by decide))
  have hmap := vmmMapPage_mapped hwf (Set.mem_singleton pml4) (by rwa [hnat]) (by rwa [hnat]) (by rwa [hnat]) hattr hsize h
  refine ⟨hmap.wf, hmap.size.trans_le hsize, fun f _ hmem => ?_, fun f hf hnot => ?_⟩
  · obtain rfl := mem_singleton.mp hmem
    have hself := hmap.self
    rwa [hnat] at hself
  · refine hmap.other pml4 (Set.mem_singleton pml4) _ fun he => hnot ?_
    have hpage := congrArg BitVec.toNat he
    rw [pageOf_toNat, pageOf_toNat, hnat, BitVec.toNat_ofNat] at hpage
    rw [mem_singleton]
    unfold pageSize at *
    omega

theorem identityMap_mapped {attr : Nat → PageWord} (hattr : ∀ addr, (attr addr).getLsbD 0 = true) (addrs : List Nat)
    (haddrs : ∀ addr ∈ addrs, addr % pageSize = 0 ∧ addr < 2 ^ 40) {pg : Paging} (hwf : WellFormedIn pg {pml4})
    (hsize : pg.pm.bitmapSize ≤ 2 ^ 22)
    (h : addrs.foldlM (fun pg addr => vmmIdentityMapPage pg pml4 (BitVec.ofNat 64 addr) (attr addr)) pg = .ok pg') :
    IdentityMapped pg pg' pml4 addrs := by
  induction addrs generalizing pg with
  | nil =>
    cases h
    exact .refl hwf hsize
  | cons addr addrs ih =>
    obtain ⟨pg1, hcall, hrest⟩ := bind_eq_ok.mp h
    obtain ⟨halign, hlt⟩ := haddrs addr mem_cons_self
    have hone := vmmIdentityMapPage_mapped hwf hsize (hattr addr) halign hlt hcall
    exact hone.trans (ih (fun a ha => haddrs a (.tail addr ha)) hone.wf hone.size hrest)

end

/-! ## The tables -/

section

variable {pg pg' : Paging} {pml4 memorySize baseAddress bufferSize : Nat} {k : KernelSymbols}

/-- After `vmm_init` the pages of its loops are mapped to themselves, and no others. -/
theorem vmmInit_translate (h : vmmInit pg memorySize k baseAddress bufferSize = .ok (pml4, pg')) (hsize : pg.pm.bitmapSize ≤ 2 ^ 22)
    (hlt : ∀ a ∈ bootAddresses memorySize k baseAddress bufferSize, a < 2 ^ 40) (hf : f * pageSize < 2 ^ 40) :
    (f * pageSize ∈ bootAddresses memorySize k baseAddress bufferSize →
      translate pg' pml4 (BitVec.ofNat 64 (f * pageSize)) = some (f * pageSize)) ∧
    (f * pageSize ∉ bootAddresses memorySize k baseAddress bufferSize → translate pg' pml4 (BitVec.ofNat 64 (f * pageSize)) = none) := by
  have hsize0 : (pmmGetFrame pg.pm).2.bitmapSize = pg.pm.bitmapSize := pmmGetFrames_bitmapSize pg.pm 1
  rw [vmmInit] at h
  generalize hget : pmmGetFrame pg.pm = frame at h hsize0
  obtain ⟨root, pm⟩ := frame
  obtain ⟨⟨⟩, hassert, h⟩ := bind_eq_ok.mp h
  have hne : root ≠ null := by
    rintro rfl
    cases hassert
  let pg0 : Paging := { pm := pm, tables := Function.update pg.tables root fun _ => 0 }
  have hempty : ∀ j, pg0.entry root j = none := by
    intro j
    simp [Paging.entry, pg0, entryPresent]
  have hwf0 : WellFormedIn pg0 {root} :=
    (wellFormedIn_singleton pg0 root).mpr (wellFormed_of_empty hempty (pmmGetFrame_fresh hget hne).2.2.1)
  obtain ⟨pg1, h1, h⟩ := bind_eq_ok.mp h
  obtain ⟨pg2, h2, h⟩ := bind_eq_ok.mp h
  obtain ⟨pg3, h3, hret⟩ := bind_eq_ok.mp h
  cases hret
  have haddrs : ∀ a ∈ bootAddresses memorySize k baseAddress bufferSize, a % pageSize = 0 ∧ a < 2 ^ 40 :=
    fun a ha => ⟨(mem_bootAddresses.mp ha).1, hlt a ha⟩
  -- the three loops, one after the other
  have hmem := identityMap_mapped (fun _ => by decide) _ (fun a ha => haddrs a (mem_append_left _ ha)) hwf0 (hsize0.trans_le hsize) h1
  have hkernel := identityMap_mapped (fun addr => by split <;> decide) _
    (fun a ha => haddrs a (mem_append_right _ (mem_append_left _ ha))) hmem.wf hmem.size h2
  have hfb := identityMap_mapped (fun _ => by decide) _
    (fun a ha => haddrs a (mem_append_right _ (mem_append_right _ ha))) hkernel.wf hkernel.size h3
  have hall := hmem.trans (hkernel.trans hfb)
  refine ⟨hall.mapped f hf, fun hnot => (hall.other f hf hnot).trans ?_⟩
  rw [translate_eq_walk, pathOf, walk_cons, hempty]
  rfl

/-- Every page with a byte of the memory or of the framebuffer is mapped to itself. -/
def BootMapped (pg : Paging) (pml4 memorySize baseAddress bufferSize : Nat) : Prop :=
  ∀ f, SharesByte f 0 memorySize ∨ SharesByte f baseAddress bufferSize →
    translate pg pml4 (BitVec.ofNat 64 (f * pageSize)) = some (f * pageSize)

/-- Memory and framebuffer are where an entry can hold their addresses, and the loops go through the pages of the framebuffer. -/
structure BootCovers (memorySize : Nat) (k : KernelSymbols) (baseAddress bufferSize : Nat) : Prop where
  memory : memorySize ≤ 2 ^ 40
  below : ∀ f, SharesByte f baseAddress bufferSize → f * pageSize < 2 ^ 40
  covered : ∀ f, SharesByte f baseAddress bufferSize → InBootRange memorySize k baseAddress bufferSize (f * pageSize)

theorem translate_lt {phys : Nat} (h : translate pg pml4 v = some phys) : phys < 2 ^ 40 := by
  obtain ⟨pt, -, hentry⟩ := Option.bind_eq_some_iff.mp h
  rw [← (entry_eq_some hentry).2]
  exact BitVec.isLt _

/-- Boot page tables. After `vmm_init` the pages of the memory and of the framebuffer are all mapped to themselves exactly when the
loops cover the framebuffer, and an entry can hold the addresses. -/
theorem vmmInit_mapped_iff (hmem : memorySize % pageSize = 0) (hbitmap : pg.pm.bitmapSize = memorySize / pageSize / bitmapElementSize)
    (hkernel : k.kernelEnd ≤ 2 ^ 40) (h : vmmInit pg memorySize k baseAddress bufferSize = .ok (pml4, pg')) :
    BootMapped pg' pml4 memorySize baseAddress bufferSize ↔ BootCovers memorySize k baseAddress bufferSize := by
  have hsize : memorySize ≤ 2 ^ 40 → pg.pm.bitmapSize ≤ 2 ^ 22 := by
    intro hle
    rw [hbitmap]
    unfold pageSize bitmapElementSize
    omega
  constructor
  · intro hmapped
    have hmemory : memorySize ≤ 2 ^ 40 := by
      by_contra hgt
      have hpage := translate_lt (hmapped (2 ^ 28) (.inl ⟨2 ^ 40, Nat.zero_le _, by omega, by decide⟩))
      unfold pageSize at hpage
      omega
    have hbelow : ∀ f, SharesByte f baseAddress bufferSize → f * pageSize < 2 ^ 40 := fun f hf => translate_lt (hmapped f (.inr hf))
    refine ⟨hmemory, hbelow, fun f hf => ?_⟩
    by_contra hout
    have hnone := (vmmInit_translate h (hsize hmemory) (fun a => bootAddresses_lt hmemory hkernel hbelow) (hbelow f hf)).2
      fun hmem => hout (mem_bootAddresses.mp hmem).2
    have hcontra := hnone.symm.trans (hmapped f (.inr hf))
    cases hcontra
  · rintro ⟨hmemory, hbelow, hcovered⟩ f hf
    have hmod : f * pageSize % pageSize = 0 := Nat.mul_mod_left _ _
    have hin : f * pageSize < 2 ^ 40 ∧ InBootRange memorySize k baseAddress bufferSize (f * pageSize) := by
      rcases hf with ⟨a, -, ha, rfl⟩ | hf
      · refine ⟨?_, .inl ?_⟩
        · unfold pageSize at *
          omega
        · unfold rndup pageSize at *
          split <;> omega
      · exact ⟨hbelow f hf, hcovered f hf⟩
    exact (vmmInit_translate h (hsize hmemory) (fun a => bootAddresses_lt hmemory hkernel hbelow) hin.1).1
      (mem_bootAddresses.mpr ⟨hmod, hin.2⟩)

end

/-- 64 frames of memory, eight of which are free. -/
def bootPaging : Paging :=
  { pm := { bitmap := fun _ => 0xFFFFFFFFFFFF00FF, bitmapSize := 1, lastFoundBitmap := 0 }, tables := fun _ _ => 0 }

/-- An empty kernel. -/
def emptyKernel : KernelSymbols := ⟨0x200000, 0x200000, 0x200000, 0x200000⟩

/-- A framebuffer of one page. -/
theorem vmmInit_mapped_page : ∃ pml4 pg', vmmInit bootPaging (64 * pageSize) emptyKernel 0x80000000 0x1000 = .ok (pml4, pg') ∧
    BootMapped pg' pml4 (64 * pageSize) 0x80000000 0x1000 := by
  have hpage : ∀ f, SharesByte f 0x80000000 0x1000 → f = 0x80000 := by
    rintro f ⟨a, hlo, hhi, rfl⟩
    unfold pageSize
    omega
  refine exists_ok_pair (by decide +kernel) fun pml4 pg' hok => ?_
  refine (vmmInit_mapped_iff (by decide) (by decide) (by decide) hok).mpr ⟨by decide, fun f hf => ?_, fun f hf => ?_⟩
  · rw [hpage f hf]
    decide
  · rw [hpage f hf]
    exact .inr (.inr (by decide))

/-- A framebuffer with a partial last page: the page is not mapped. -/
theorem vmmInit_partial_page : SharesByte 0x80001 0x80000000 0x1080 ∧
    ∃ pml4 pg', vmmInit bootPaging (64 * pageSize) emptyKernel 0x80000000 0x1080 = .ok (pml4, pg') ∧
      translate pg' pml4 (BitVec.ofNat 64 (0x80001 * pageSize)) = none := by
  have hbelow : ∀ f, SharesByte f 0x80000000 0x1080 → f * pageSize < 2 ^ 40 := by
    rintro f ⟨a, hlo, hhi, rfl⟩
    unfold pageSize
    omega
  have hlt : ∀ a ∈ bootAddresses (64 * pageSize) emptyKernel 0x80000000 0x1080, a < 2 ^ 40 :=
    fun a => bootAddresses_lt (by decide) (by decide) hbelow
  refine ⟨⟨0x80001000, by decide, by decide, by decide⟩, exists_ok_pair (by decide +kernel) fun pml4 pg' hok => ?_⟩
  refine (vmmInit_translate hok (by decide) hlt (by decide)).2 ?_
  rw [mem_bootAddresses]
  unfold InBootRange
  decide

end OmegaOS
