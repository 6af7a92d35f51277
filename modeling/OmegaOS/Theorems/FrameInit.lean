import OmegaOS.Lemmas.Pmm

/-!
# The bitmap that `pmm_init` makes

Which frames `pmm_init` marks, and where in the bitmap it writes. The bitmap is as large as the sum of the regions, but a frame is
numbered by its address; and the macros that round the ends of the regions round the other way.
-/

namespace OmegaOS

open List

variable {pm : Pmm} {mmap : List MemoryDescriptor} {largest : MemoryDescriptor} {fbBase fbSize kernelEnd f r pc start : Nat} {memory : Nat → BitVec 64}

/-! ## The accesses of `pmm_init` -/

/-- The frames that `pmm_reserveRegion` and `pmm_unreserveRegion` go through, from the rounded start on. -/
def regionFrames (roundedStart pc : Nat) : List Nat :=
  (List.range pc).map fun i => (roundedStart + i * pageSize) % 2 ^ 64 / pageSize

/-- `setFrame(index)` or `clearFrame(index)`. -/
inductive FrameAccess where
  | set (index : Nat)
  | clear (index : Nat)
deriving DecidableEq, Repr

def FrameAccess.index : FrameAccess → Nat
  | set index => index
  | clear index => index

def FrameAccess.perform (pm : Pmm) : FrameAccess → Pmm
  | set index => setFrame pm index
  | clear index => clearFrame pm index

/-- `g_bitmapSize`, and `bitmapSizeInBytes`. -/
def bitmapWords (mmap : List MemoryDescriptor) : Nat := pmmGetMemorySize mmap / pageSize / bitmapElementSize

@[inherit_doc bitmapWords] def bitmapBytes (mmap : List MemoryDescriptor) : Nat := bitmapWords mmap * 8

/-- The frames that `pmm_init` clears. -/
def clearedFrames (mmap : List MemoryDescriptor) : List Nat :=
  (mmap.filter fun desc => desc.type = mmapFree).flatMap fun desc =>
    regionFrames (rndup desc.physicalStart pageSize) desc.numberOfPages

/-- The frames that it then sets: of the bitmap, of the framebuffer and of the kernel. -/
def reservedFrames (mmap : List MemoryDescriptor) (largest : MemoryDescriptor) (fbBase fbSize kernelEnd : Nat) : List Nat :=
  regionFrames (rndwn largest.physicalStart pageSize) (bitmapBytes mmap / pageSize) ++
    regionFrames (rndwn fbBase pageSize) (fbSize / pageSize) ++ regionFrames (rndwn 0 pageSize) (kernelEnd / pageSize + 1)

/-- The accesses of `pmm_init` to the bitmap, in their order. -/
def pmmInitAccesses (mmap : List MemoryDescriptor) (largest : MemoryDescriptor) (fbBase fbSize kernelEnd : Nat) : List FrameAccess :=
  (clearedFrames mmap).map .clear ++ (reservedFrames mmap largest fbBase fbSize kernelEnd).map .set

/-- The bitmap with every frame reserved. -/
def reservedPmm (memory : Nat → BitVec 64) (mmap : List MemoryDescriptor) : Pmm :=
  { bitmap := fun i => if i < bitmapWords mmap then BitVec.allOnes 64 else memory i, bitmapSize := bitmapWords mmap,
    lastFoundBitmap := 0 }

theorem pmmReserveRegion_eq (pm : Pmm) (start pc : Nat) :
    pmmReserveRegion pm start pc = (regionFrames (rndwn start pageSize) pc).foldl setFrame pm := by
  rw [regionFrames, foldl_map]
  rfl

theorem unreserveRegions_eq (mmap : List MemoryDescriptor) (pm : Pmm) : mmap.foldl (fun pm desc =>
      if desc.type = mmapFree then pmmUnreserveRegion pm desc.physicalStart desc.numberOfPages else pm) pm =
        (clearedFrames mmap).foldl clearFrame pm := by
  induction mmap generalizing pm with
  | nil => rfl
  | cons desc mmap ih =>
    rw [foldl_cons, ih]
    unfold clearedFrames
    by_cases hfree : desc.type = mmapFree
    · rw [if_pos hfree, filter_cons_of_pos (by simpa using hfree), flatMap_cons, foldl_append]
      congr 1
      rw [regionFrames, foldl_map]
      rfl
    · rw [if_neg hfree, filter_cons_of_neg (by simpa using hfree)]

theorem performAll_bitmapSize (as : List FrameAccess) (pm : Pmm) : (as.foldl FrameAccess.perform pm).bitmapSize = pm.bitmapSize := by
  induction as generalizing pm with
  | nil => rfl
  | cons a as ih =>
    rw [foldl_cons, ih]
    cases a with
    | set index => rfl
    | clear index => rfl

/-- When its assertions hold, `pmm_init` performs its accesses on the bitmap with every frame reserved. -/
theorem pmmInit_ok (h : pmmInit memory mmap fbBase fbSize kernelEnd = .ok pm) :
    ∃ largest, largestSegment mmap = some largest ∧ bitmapBytes mmap < largest.numberOfPages ∧ pm.bitmapSize = bitmapWords mmap ∧
      pm = (pmmInitAccesses mmap largest fbBase fbSize kernelEnd).foldl FrameAccess.perform (reservedPmm memory mmap) := by
  unfold pmmInit at h
  cases hl : largestSegment mmap with
  | none =>
    simp [hl] at h
  | some largest =>
    rw [hl] at h
    obtain ⟨_, hassert, hpm⟩ := bind_eq_ok.mp h
    have hroom : bitmapBytes mmap < largest.numberOfPages := by
      by_contra hno
      have hfalse : decide (pmmGetMemorySize mmap / pageSize / bitmapElementSize * 8 < largest.numberOfPages) = false :=
        decide_eq_false hno
      simp [hfalse] at hassert
    have heq : pm = (pmmInitAccesses mmap largest fbBase fbSize kernelEnd).foldl FrameAccess.perform (reservedPmm memory mmap) := by
      rw [← Except.ok.inj hpm, unreserveRegions_eq, pmmReserveRegion_eq, pmmReserveRegion_eq, pmmReserveRegion_eq,
        pmmInitAccesses, foldl_append, foldl_map, foldl_map, reservedFrames, foldl_append, foldl_append]
      rfl
    exact ⟨largest, rfl, hroom, by rw [heq]; exact performAll_bitmapSize _ _, heq⟩

/-! ## What the accesses do -/

theorem setList_used (l : List Nat) (pm : Pmm) (f : Nat) : (l.foldl setFrame pm).used f = (pm.used f || decide (f ∈ l)) := by
  induction l generalizing pm with
  | nil => simp
  | cons index l ih => rw [foldl_cons, ih, setFrame_used, Bool.or_assoc, ← Bool.decide_or, decide_eq_decide.mpr mem_cons.symm]

theorem clearList_used (l : List Nat) (pm : Pmm) (f : Nat) : (l.foldl clearFrame pm).used f = (pm.used f && !decide (f ∈ l)) := by
  induction l generalizing pm with
  | nil => simp
  | cons index l ih =>
    rw [foldl_cons, ih, clearFrame_used, Bool.and_assoc, ← Bool.not_or, ← Bool.decide_or, decide_eq_decide.mpr mem_cons.symm]

/-- The frames of the bitmap that are free after `pmm_init`. -/
theorem pmmInitAccesses_free (memory : Nat → BitVec 64) (hf : f < bitmapWords mmap * bitmapElementSize) :
    ((pmmInitAccesses mmap largest fbBase fbSize kernelEnd).foldl FrameAccess.perform (reservedPmm memory mmap)).used f = false ↔
      f ∈ clearedFrames mmap ∧ f ∉ reservedFrames mmap largest fbBase fbSize kernelEnd := by
  have hword : f / bitmapElementSize < bitmapWords mmap := (Nat.div_lt_iff_lt_mul (by decide)).mpr hf
  have hall : (reservedPmm memory mmap).used f = true := by
    have hbit : f % bitmapElementSize < 64 := Nat.mod_lt _ (by decide)
    have hones : (reservedPmm memory mmap).bitmap (f / bitmapElementSize) = BitVec.allOnes 64 := if_pos hword
    rw [Pmm.used, hones, BitVec.getLsbD_allOnes, decide_eq_true hbit]
  rw [pmmInitAccesses, foldl_append, foldl_map, foldl_map]
  show (foldl setFrame (foldl clearFrame _ _) _).used f = false ↔ _
  rw [setList_used, clearList_used, hall]
  simp

/-! ## Inside the bitmap -/

theorem pmmGetMemorySize_lt (mmap : List MemoryDescriptor) : pmmGetMemorySize mmap < 2 ^ 64 := by
  have hfold : ∀ (ds : List MemoryDescriptor) (acc : Nat), acc < 2 ^ 64 →
      ds.foldl (fun memorySize desc => (memorySize + desc.numberOfPages * pageSize) % 2 ^ 64) acc < 2 ^ 64 := by
    intro ds
    induction ds with
    | nil => exact fun acc hacc => hacc
    | cons desc ds ih => exact fun acc _ => ih _ (Nat.mod_lt _ (by decide))
  exact hfold mmap 0 (by decide)

/-- The frames of the bitmap are frames of the address space. -/
theorem bitmapFrames_lt (mmap : List MemoryDescriptor) : bitmapWords mmap * bitmapElementSize < 2 ^ 52 := by
  have := pmmGetMemorySize_lt mmap
  unfold bitmapWords bitmapElementSize pageSize
  omega

theorem mem_regionFrames (hr : r % pageSize = 0) (hfit : r / pageSize + pc ≤ 2 ^ 52) :
    f ∈ regionFrames r pc ↔ r / pageSize ≤ f ∧ f < r / pageSize + pc := by
  have hindex : ∀ i < pc, (r + i * pageSize) % 2 ^ 64 / pageSize = r / pageSize + i := by
    intro i hi
    unfold pageSize at *
    omega
  rw [regionFrames, mem_map]
  constructor
  · rintro ⟨i, hi, rfl⟩
    have hi := mem_range.mp hi
    rw [hindex i hi]
    omega
  · rintro ⟨hlo, hhi⟩
    refine ⟨f - r / pageSize, mem_range.mpr (by omega), ?_⟩
    rw [hindex _ (by omega)]
    omega

/-- A region is empty or ends inside the bitmap. -/
def RegionFits (words roundedStart pc : Nat) : Prop := pc = 0 ∨ roundedStart / pageSize + pc ≤ words * bitmapElementSize

/-- The loop over a region stays in the bitmap exactly when the region does. A region that wraps around leaves it before. -/
theorem regionFrames_inside_iff {words : Nat} (hwords : words * bitmapElementSize < 2 ^ 52) (hr : r % pageSize = 0)
    (hlt : r < 2 ^ 64) : (∀ f ∈ regionFrames r pc, f / bitmapElementSize < words) ↔ RegionFits words r pc := by
  have hinside : ∀ f, f / bitmapElementSize < words ↔ f < words * bitmapElementSize := fun f => Nat.div_lt_iff_lt_mul (by decide)
  constructor
  · intro h
    by_contra hno
    obtain ⟨hpc, hend⟩ := not_or.mp hno
    have hfirst : r / pageSize < words * bitmapElementSize := by
      have hmem : r / pageSize ∈ regionFrames r pc := by
        refine mem_map.mpr ⟨0, mem_range.mpr (by omega), ?_⟩
        rw [Nat.zero_mul, Nat.add_zero, Nat.mod_eq_of_lt hlt]
      exact (hinside _).mp (h _ hmem)
    -- the first frame behind the bitmap
    have hmem : words * bitmapElementSize ∈ regionFrames r pc := by
      refine mem_map.mpr ⟨words * bitmapElementSize - r / pageSize, mem_range.mpr (by omega), ?_⟩
      generalize words * bitmapElementSize = n at hwords hend hfirst
      unfold pageSize at *
      omega
    have := (hinside _).mp (h _ hmem)
    omega
  · rintro (rfl | hend) f hf
    · cases hf
    · have := (mem_regionFrames hr (by omega)).mp hf
      exact (hinside f).mpr (by omega)

theorem rndup_mod (start : Nat) : rndup start pageSize % pageSize = 0 := by
  unfold rndup
  split
  · exact Nat.mod_self pageSize
  · exact Nat.mul_mod_left _ _

theorem rndup_lt (h : start < 2 ^ 64) : rndup start pageSize < 2 ^ 64 := by
  unfold rndup pageSize
  split <;> omega

theorem rndwn_mod (start : Nat) : rndwn start pageSize % pageSize = 0 := Nat.mul_mod_left _ _

/-- What the layout of the memory must be for `pmm_init`: the free regions, the bitmap, the framebuffer and the kernel, each
rounded as it rounds them, end inside the bitmap. -/
structure InitFits (mmap : List MemoryDescriptor) (largest : MemoryDescriptor) (fbBase fbSize kernelEnd : Nat) : Prop where
  free : ∀ desc ∈ mmap, desc.type = mmapFree →
    RegionFits (bitmapWords mmap) (rndup desc.physicalStart pageSize) desc.numberOfPages
  bitmap : RegionFits (bitmapWords mmap) (rndwn largest.physicalStart pageSize) (bitmapBytes mmap / pageSize)
  framebuffer : RegionFits (bitmapWords mmap) (rndwn fbBase pageSize) (fbSize / pageSize)
  kernel : kernelEnd / pageSize < bitmapWords mmap * bitmapElementSize

/-- `pmm_init` performs its accesses, and each is to a word of the bitmap exactly when every region ends inside it. -/
theorem pmmInit_inside_iff {memory : Nat → BitVec 64} (hmap : ∀ desc ∈ mmap, desc.physicalStart < 2 ^ 64)
    (h : pmmInit memory mmap fbBase fbSize kernelEnd = .ok pm) : ∃ largest, largestSegment mmap = some largest ∧
      pm = (pmmInitAccesses mmap largest fbBase fbSize kernelEnd).foldl FrameAccess.perform (reservedPmm memory mmap) ∧
      ((∀ a ∈ pmmInitAccesses mmap largest fbBase fbSize kernelEnd, a.index / bitmapElementSize < pm.bitmapSize) ↔
        InitFits mmap largest fbBase fbSize kernelEnd) := by
  obtain ⟨largest, hl, -, hsize, heq⟩ := pmmInit_ok h
  refine ⟨largest, hl, heq, ?_⟩
  rw [hsize]
  have hwords := bitmapFrames_lt mmap
  have hkernel : RegionFits (bitmapWords mmap) (rndwn 0 pageSize) (kernelEnd / pageSize + 1) ↔
      kernelEnd / pageSize < bitmapWords mmap * bitmapElementSize := by
    have hzero : rndwn 0 pageSize / pageSize = 0 := by decide
    rw [RegionFits, hzero, Nat.zero_add, or_iff_right (Nat.succ_ne_zero _)]
    exact .rfl
  have hset : ∀ start pc, (∀ f ∈ regionFrames (rndwn start pageSize) pc, f / bitmapElementSize < bitmapWords mmap) ↔
      RegionFits (bitmapWords mmap) (rndwn start pageSize) pc :=
    fun start _ => regionFrames_inside_iff hwords (rndwn_mod start) (by unfold rndwn pageSize; omega)
  constructor
  · intro hall
    have hclear : ∀ f ∈ clearedFrames mmap, f / bitmapElementSize < bitmapWords mmap := fun f hf =>
      hall (.clear f) (List.mem_append_left _ (List.mem_map_of_mem hf))
    have hreserve : ∀ f ∈ reservedFrames mmap largest fbBase fbSize kernelEnd, f / bitmapElementSize < bitmapWords mmap :=
      fun f hf => hall (.set f) (List.mem_append_right _ (List.mem_map_of_mem hf))
    refine ⟨fun desc hdesc hfree => ?_, ?_, ?_, ?_⟩
    · refine (regionFrames_inside_iff hwords (rndup_mod _) (rndup_lt (hmap desc hdesc))).mp fun f hf => hclear f ?_
      exact List.mem_flatMap.mpr ⟨desc, List.mem_filter.mpr ⟨hdesc, decide_eq_true hfree⟩, hf⟩
    · exact (hset _ _).mp fun f hf => hreserve f (List.mem_append_left _ (List.mem_append_left _ hf))
    · exact (hset _ _).mp fun f hf => hreserve f (List.mem_append_left _ (List.mem_append_right _ hf))
    · exact hkernel.mp ((hset _ _).mp fun f hf => hreserve f (List.mem_append_right _ hf))
  · intro hfits a ha
    rcases List.mem_append.mp ha with ha | ha
    · obtain ⟨f, hf, rfl⟩ := List.mem_map.mp ha
      obtain ⟨desc, hdesc, hf⟩ := List.mem_flatMap.mp hf
      obtain ⟨hdesc, hfree⟩ := List.mem_filter.mp hdesc
      exact (regionFrames_inside_iff hwords (rndup_mod _) (rndup_lt (hmap desc hdesc))).mpr
        (hfits.free desc hdesc (of_decide_eq_true hfree)) f hf
    · obtain ⟨f, hf, rfl⟩ := List.mem_map.mp ha
      rcases List.mem_append.mp hf with hf | hf
      · rcases List.mem_append.mp hf with hf | hf
        · exact (hset _ _).mpr hfits.bitmap f hf
        · exact (hset _ _).mpr hfits.framebuffer f hf
      · exact (hset _ _).mpr (hkernel.mpr hfits.kernel) f hf

/-- 63 free pages behind a page of the firmware. -/
def smallMap : List MemoryDescriptor := [⟨mmapFree, pageSize, 63⟩, ⟨0, 0, 1⟩]

/-- They are the frames 1 to 63 of one word. -/
theorem pmmInit_inside_small : ∃ pm, pmmInit (fun _ => 0#64) smallMap 0 0 100 = .ok pm ∧
    ∀ a ∈ pmmInitAccesses smallMap ⟨mmapFree, pageSize, 63⟩ 0 0 100, a.index / bitmapElementSize < pm.bitmapSize := by
  obtain ⟨pm, hinit⟩ : ∃ pm, pmmInit (fun _ => 0#64) smallMap 0 0 100 = .ok pm := ⟨_, rfl⟩
  obtain ⟨largest, hl, -, hiff⟩ := pmmInit_inside_iff (by decide) hinit
  cases hl
  refine ⟨pm, hinit, hiff.mpr ⟨?_, ?_, ?_, ?_⟩⟩
  · intro desc hdesc hfree
    rcases List.mem_cons.mp hdesc with rfl | hdesc
    · exact Or.inr (by decide)
    · rw [List.mem_singleton.mp hdesc] at hfree
      cases hfree
  · exact Or.inl (by decide)
  · exact Or.inl (by decide)
  · decide

/-- A single region of 64 pages at frame 256: the bitmap has one word, and the first access is to the fifth. -/
theorem pmmInit_outside : ∃ pm, pmmInit (fun _ => 0#64) [⟨mmapFree, 256 * pageSize, 64⟩] 0 0 0 = .ok pm ∧ pm.bitmapSize = 1 ∧
    largestSegment [⟨mmapFree, 256 * pageSize, 64⟩] = some ⟨mmapFree, 256 * pageSize, 64⟩ ∧
    ∃ a ∈ pmmInitAccesses [⟨mmapFree, 256 * pageSize, 64⟩] ⟨mmapFree, 256 * pageSize, 64⟩ 0 0 0, a.index / bitmapElementSize = 4 :=
  ⟨_, rfl, by decide, rfl, .clear 256, by decide, by decide⟩

/-! ## Free frames -/

/-- The frame lies in the region. -/
def MemoryDescriptor.Contains (desc : MemoryDescriptor) (f : Nat) : Prop :=
  desc.physicalStart / pageSize ≤ f ∧ f < desc.physicalStart / pageSize + desc.numberOfPages

/-- The frame lies in a region of type `MMAP_FREE`. -/
def InFreeRegion (mmap : List MemoryDescriptor) (f : Nat) : Prop := ∃ desc ∈ mmap, desc.type = mmapFree ∧ desc.Contains f

/-- The frame shares a byte with the `size` bytes from `lo` on. -/
def SharesByte (f lo size : Nat) : Prop := ∃ a, lo ≤ a ∧ a < lo + size ∧ a / pageSize = f

/-- A frame that may be handed out: it is in a free region, and holds nothing of the bitmap, the framebuffer and the kernel. -/
structure UsableFrame (mmap : List MemoryDescriptor) (largest : MemoryDescriptor) (fbBase fbSize kernelEnd f : Nat) : Prop where
  free : InFreeRegion mmap f
  offBitmap : ¬ SharesByte f largest.physicalStart (bitmapBytes mmap)
  offFramebuffer : ¬ SharesByte f fbBase fbSize
  offKernel : ¬ SharesByte f 0 kernelEnd

/-- What is given to `pmm_init`: page-aligned regions whose free frames fit in the bitmap, and a framebuffer and a kernel in the
address space. -/
structure MemoryLayout (mmap : List MemoryDescriptor) (fbBase fbSize kernelEnd : Nat) : Prop where
  aligned : ∀ desc ∈ mmap, desc.physicalStart % pageSize = 0
  fits : ∀ desc ∈ mmap, desc.type = mmapFree → ∀ f, desc.Contains f → f < bitmapWords mmap * bitmapElementSize
  framebuffer : fbBase + fbSize ≤ 2 ^ 64
  kernel : kernelEnd < 2 ^ 64

/-- When the rounding does no harm: a partial last page of the bitmap and the pages of the framebuffer that are not reserved for it
are reserved otherwise, a kernel that ends at a page ends at one that is not usable, and so does a free region that starts
at 0, unless that page is usable. -/
structure RoundedExactly (mmap : List MemoryDescriptor) (largest : MemoryDescriptor) (fbBase fbSize kernelEnd : Nat) : Prop where
  bitmap : bitmapBytes mmap % pageSize ≠ 0 →
    largest.physicalStart / pageSize + bitmapBytes mmap / pageSize ∈ reservedFrames mmap largest fbBase fbSize kernelEnd
  framebuffer : ∀ f, InFreeRegion mmap f → SharesByte f fbBase fbSize → f ∈ reservedFrames mmap largest fbBase fbSize kernelEnd
  kernel : kernelEnd % pageSize = 0 → ¬ UsableFrame mmap largest fbBase fbSize kernelEnd (kernelEnd / pageSize)
  zero : ∀ desc ∈ mmap, desc.type = mmapFree → desc.physicalStart = 0 → 0 < desc.numberOfPages →
    desc.numberOfPages < bitmapWords mmap * bitmapElementSize →
      desc.numberOfPages ∈ reservedFrames mmap largest fbBase fbSize kernelEnd ∨
        UsableFrame mmap largest fbBase fbSize kernelEnd desc.numberOfPages

theorem largestSegment_mem (h : largestSegment mmap = some largest) : largest ∈ mmap ∧ largest.type = mmapFree := by
  have hfold : ∀ (ds : List MemoryDescriptor) (acc : Option MemoryDescriptor), ds.foldl (fun largest desc =>
        if desc.type = mmapFree ∧ (largest.map (·.numberOfPages)).getD 0 < desc.numberOfPages then some desc else largest) acc =
          some largest → acc = some largest ∨ largest ∈ ds ∧ largest.type = mmapFree := by
    intro ds
    induction ds with
    | nil => exact fun acc hacc => .inl hacc
    | cons desc ds ih =>
      intro acc hacc
      rw [foldl_cons] at hacc
      rcases ih _ hacc with hhere | ⟨hmem, hfree⟩
      · split at hhere
        · rename_i hbetter
          cases hhere
          exact .inr ⟨mem_cons_self, hbetter.1⟩
        · exact .inl hhere
      · exact .inr ⟨.tail _ hmem, hfree⟩
  exact (hfold mmap none h).resolve_left (by simp)

section

variable (hlay : MemoryLayout mmap fbBase fbSize kernelEnd)
include hlay

/-- The frames that `pmm_init` clears are those of the free regions, but for a region that starts at 0, of which it clears those one
page on. -/
theorem MemoryLayout.mem_clearedFrames : f ∈ clearedFrames mmap ↔ ∃ desc ∈ mmap, desc.type = mmapFree ∧
    (desc.physicalStart ≠ 0 ∧ desc.Contains f ∨ desc.physicalStart = 0 ∧ 1 ≤ f ∧ f < 1 + desc.numberOfPages) := by
  have hregion : ∀ desc ∈ mmap, desc.type = mmapFree → (f ∈ regionFrames (rndup desc.physicalStart pageSize) desc.numberOfPages ↔
        (desc.physicalStart ≠ 0 ∧ desc.Contains f ∨ desc.physicalStart = 0 ∧ 1 ≤ f ∧ f < 1 + desc.numberOfPages)) := by
    intro desc hdesc hfree
    have haligned := hlay.aligned desc hdesc
    by_cases hpages : desc.numberOfPages = 0
    · refine iff_of_false ?_ ?_
      · rw [hpages]
        exact not_mem_nil
      · unfold MemoryDescriptor.Contains
        omega
    · have hlast := hlay.fits desc hdesc hfree (desc.physicalStart / pageSize + (desc.numberOfPages - 1)) ⟨Nat.le_add_right _ _, by omega⟩
      have hbound := bitmapFrames_lt mmap
      by_cases hzero : desc.physicalStart = 0
      · have hround : rndup desc.physicalStart pageSize = pageSize := by
          rw [hzero]
          rfl
        have hone : pageSize / pageSize = 1 := rfl
        rw [hzero, Nat.zero_div] at hlast
        rw [hround, mem_regionFrames (Nat.mod_self pageSize) (by omega), hone]
        omega
      · have hround : rndup desc.physicalStart pageSize = desc.physicalStart := by
          unfold rndup
          unfold pageSize at *
          rw [if_neg (by omega)]
          omega
        rw [hround, mem_regionFrames haligned (by omega)]
        unfold MemoryDescriptor.Contains
        omega
  rw [clearedFrames, mem_flatMap]
  constructor
  · rintro ⟨desc, hmem, hf⟩
    obtain ⟨hdesc, hfree⟩ := mem_filter.mp hmem
    have hfree := of_decide_eq_true hfree
    exact ⟨desc, hdesc, hfree, (hregion desc hdesc hfree).mp hf⟩
  · rintro ⟨desc, hdesc, hfree, hf⟩
    exact ⟨desc, mem_filter.mpr ⟨hdesc, decide_eq_true hfree⟩, (hregion desc hdesc hfree).mpr hf⟩

theorem MemoryLayout.lt_of_free (h : InFreeRegion mmap f) : f < bitmapWords mmap * bitmapElementSize := by
  obtain ⟨desc, hdesc, hfree, hf⟩ := h
  exact hlay.fits desc hdesc hfree f hf

/-- Of a free region only frame 0 is not cleared. -/
theorem MemoryLayout.cleared_of_free (h : InFreeRegion mmap f) (hne : f ≠ 0) : f ∈ clearedFrames mmap := by
  obtain ⟨desc, hdesc, hfree, hf⟩ := h
  refine hlay.mem_clearedFrames.mpr ⟨desc, hdesc, hfree, ?_⟩
  by_cases hzero : desc.physicalStart = 0
  · rw [MemoryDescriptor.Contains, hzero, Nat.zero_div] at hf
    exact .inr ⟨hzero, by omega, by omega⟩
  · exact .inl ⟨hzero, hf⟩

/-- The frames that `pmm_init` reserves: the whole pages of the bitmap, as many pages of the framebuffer from its base rounded up,
and the pages of the kernel with the one behind them. -/
theorem MemoryLayout.mem_reservedFrames (hl : largestSegment mmap = some largest) (hroom : bitmapBytes mmap < largest.numberOfPages) :
    f ∈ reservedFrames mmap largest fbBase fbSize kernelEnd ↔
      (largest.physicalStart / pageSize ≤ f ∧ f < largest.physicalStart / pageSize + bitmapBytes mmap / pageSize) ∨
        (rndwn fbBase pageSize / pageSize ≤ f ∧ f < rndwn fbBase pageSize / pageSize + fbSize / pageSize) ∨ f ≤ kernelEnd / pageSize := by
  obtain ⟨hmem, hfree⟩ := largestSegment_mem hl
  have haligned := hlay.aligned largest hmem
  have hlast := hlay.fits largest hmem hfree (largest.physicalStart / pageSize + (largest.numberOfPages - 1))
    ⟨Nat.le_add_right _ _, by omega⟩
  have hbound := bitmapFrames_lt mmap
  have hround : rndwn largest.physicalStart pageSize = largest.physicalStart := by
    unfold rndwn
    unfold pageSize at *
    omega
  have hpages : bitmapBytes mmap / pageSize ≤ bitmapBytes mmap := Nat.div_le_self _ _
  have hfb := hlay.framebuffer
  have hkernel := hlay.kernel
  have hfit : rndwn fbBase pageSize / pageSize + fbSize / pageSize ≤ 2 ^ 52 := by
    unfold rndwn pageSize
    omega
  have hzero : rndwn 0 pageSize / pageSize = 0 := by decide
  have hfit' : rndwn 0 pageSize / pageSize + (kernelEnd / pageSize + 1) ≤ 2 ^ 52 := by
    rw [hzero]
    unfold pageSize
    omega
  rw [reservedFrames, mem_append, mem_append, hround, mem_regionFrames haligned (by omega),
    mem_regionFrames (rndwn_mod fbBase) hfit, mem_regionFrames (rndwn_mod 0) hfit', hzero]
  omega

end

/-- The frames of the bitmap: its whole pages, and the partial page at its end. -/
theorem sharesByte_aligned {size : Nat} (haligned : start % pageSize = 0) :
    SharesByte f start size ↔ (start / pageSize ≤ f ∧ f < start / pageSize + size / pageSize) ∨
      size % pageSize ≠ 0 ∧ f = start / pageSize + size / pageSize := by
  constructor
  · rintro ⟨a, hlo, hhi, rfl⟩
    unfold pageSize at *
    omega
  · intro h
    refine ⟨f * pageSize, ?_⟩
    unfold pageSize at *
    omega

theorem sharesByte_kernel : SharesByte f 0 kernelEnd ↔ f ≤ kernelEnd / pageSize ∧ (f = kernelEnd / pageSize → kernelEnd % pageSize ≠ 0) := by
  constructor
  · rintro ⟨a, -, hhi, rfl⟩
    unfold pageSize at *
    omega
  · intro h
    refine ⟨f * pageSize, ?_⟩
    unfold pageSize at *
    omega

/-- The frames that are reserved for the framebuffer are its frames. -/
theorem sharesByte_of_reserved (hfb : fbBase + fbSize ≤ 2 ^ 64) (hlo : rndwn fbBase pageSize / pageSize ≤ f)
    (hhi : f < rndwn fbBase pageSize / pageSize + fbSize / pageSize) : SharesByte f fbBase fbSize := by
  refine ⟨f * pageSize, ?_⟩
  unfold rndwn pageSize at *
  omega

section

variable (hlay : MemoryLayout mmap fbBase fbSize kernelEnd) (hl : largestSegment mmap = some largest)
  (hroom : bitmapBytes mmap < largest.numberOfPages)
include hlay hl hroom

theorem MemoryLayout.zero_reserved : 0 ∈ reservedFrames mmap largest fbBase fbSize kernelEnd :=
  (hlay.mem_reservedFrames hl hroom).mpr (Or.inr (Or.inr (Nat.zero_le _)))

/-- The frames that are reserved are not usable, but for the one behind a kernel that ends at a page. -/
theorem MemoryLayout.not_usable_of_reserved (hf : f ∈ reservedFrames mmap largest fbBase fbSize kernelEnd)
    (hu : UsableFrame mmap largest fbBase fbSize kernelEnd f) : f = kernelEnd / pageSize ∧ kernelEnd % pageSize = 0 := by
  have haligned := hlay.aligned largest (largestSegment_mem hl).1
  rcases (hlay.mem_reservedFrames hl hroom).mp hf with hbitmap | ⟨hlo, hhi⟩ | hkernel
  · exact absurd ((sharesByte_aligned haligned).mpr (.inl hbitmap)) hu.offBitmap
  · exact absurd (sharesByte_of_reserved hlay.framebuffer hlo hhi) hu.offFramebuffer
  · by_contra hne
    exact hu.offKernel (sharesByte_kernel.mpr ⟨hkernel, fun he hz => hne ⟨he, hz⟩⟩)

/-- The frames of free regions that are not reserved are usable, when the rounding does no harm. -/
theorem MemoryLayout.usable_of_unreserved (hx : RoundedExactly mmap largest fbBase fbSize kernelEnd) (hfree : InFreeRegion mmap f)
    (hf : f ∉ reservedFrames mmap largest fbBase fbSize kernelEnd) : UsableFrame mmap largest fbBase fbSize kernelEnd f := by
  have haligned := hlay.aligned largest (largestSegment_mem hl).1
  refine ⟨hfree, fun hshare => ?_, fun hshare => hf (hx.framebuffer f hfree hshare), fun hshare => ?_⟩
  · rcases (sharesByte_aligned haligned).mp hshare with hpages | ⟨hrest, rfl⟩
    · exact hf ((hlay.mem_reservedFrames hl hroom).mpr (.inl hpages))
    · exact hf (hx.bitmap hrest)
  · exact hf ((hlay.mem_reservedFrames hl hroom).mpr (.inr (.inr (sharesByte_kernel.mp hshare).1)))

/-- The frames that are cleared and not reserved are the usable ones exactly when the rounding does no harm. -/
theorem MemoryLayout.usable_iff : (∀ f < bitmapWords mmap * bitmapElementSize,
    f ∈ clearedFrames mmap ∧ f ∉ reservedFrames mmap largest fbBase fbSize kernelEnd ↔
      UsableFrame mmap largest fbBase fbSize kernelEnd f) ↔ RoundedExactly mmap largest fbBase fbSize kernelEnd := by
  obtain ⟨hmem, htype⟩ := largestSegment_mem hl
  constructor
  · intro hexact
    have hreserved : ∀ f, InFreeRegion mmap f → ¬ UsableFrame mmap largest fbBase fbSize kernelEnd f →
        f ∈ reservedFrames mmap largest fbBase fbSize kernelEnd := by
      intro f hfree hnot
      by_cases hzero : f = 0
      · rw [hzero]
        exact hlay.zero_reserved hl hroom
      · by_contra hno
        exact hnot ((hexact f (hlay.lt_of_free hfree)).mp ⟨hlay.cleared_of_free hfree hzero, hno⟩)
    refine ⟨fun hrest => hreserved _ ⟨largest, hmem, htype, Nat.le_add_right _ _, ?_⟩ fun hu => ?_,
      fun f hfree hshare => hreserved f hfree fun hu => hu.offFramebuffer hshare, fun hzero hu => ?_,
      fun desc hdesc hfree hstart hpos hlt => ?_⟩
    · have : bitmapBytes mmap / pageSize ≤ bitmapBytes mmap := Nat.div_le_self _ _
      omega
    · exact hu.offBitmap ((sharesByte_aligned (hlay.aligned largest hmem)).mpr (.inr ⟨hrest, rfl⟩))
    · exact ((hexact _ (hlay.lt_of_free hu.free)).mpr hu).2 ((hlay.mem_reservedFrames hl hroom).mpr (.inr (.inr (le_refl _))))
    · by_cases hres : desc.numberOfPages ∈ reservedFrames mmap largest fbBase fbSize kernelEnd
      · exact .inl hres
      · refine .inr ((hexact _ hlt).mp ⟨hlay.mem_clearedFrames.mpr ⟨desc, hdesc, hfree, .inr ⟨hstart, hpos, ?_⟩⟩, hres⟩)
        omega
  · intro hx f hf
    constructor
    · rintro ⟨hcleared, hres⟩
      obtain ⟨desc, hdesc, hfree, ⟨-, hin⟩ | ⟨hstart, hlo, hhi⟩⟩ := hlay.mem_clearedFrames.mp hcleared
      · exact hlay.usable_of_unreserved hl hroom hx ⟨desc, hdesc, hfree, hin⟩ hres
      · by_cases hlast : f = desc.numberOfPages
        · subst hlast
          exact (hx.zero desc hdesc hfree hstart hlo hf).resolve_left hres
        · refine hlay.usable_of_unreserved hl hroom hx ⟨desc, hdesc, hfree, ?_, ?_⟩ hres
          · rw [hstart, Nat.zero_div]
            exact Nat.zero_le f
          · rw [hstart, Nat.zero_div]
            omega
    · intro hu
      have hres : f ∉ reservedFrames mmap largest fbBase fbSize kernelEnd := by
        intro hres
        obtain ⟨rfl, hzero⟩ := hlay.not_usable_of_reserved hl hroom hres hu
        exact hx.kernel hzero hu
      refine ⟨hlay.cleared_of_free hu.free fun hzero => hres ?_, hres⟩
      rw [hzero]
      exact hlay.zero_reserved hl hroom

end

/-- After `pmm_init` the free frames of the bitmap are the usable ones exactly when the rounding does no harm. -/
theorem pmmInit_free_iff {memory : Nat → BitVec 64} (hlay : MemoryLayout mmap fbBase fbSize kernelEnd)
    (h : pmmInit memory mmap fbBase fbSize kernelEnd = .ok pm) : ∃ largest, largestSegment mmap = some largest ∧
      ((∀ f < pm.bitmapSize * bitmapElementSize, pm.used f = false ↔ UsableFrame mmap largest fbBase fbSize kernelEnd f) ↔
        RoundedExactly mmap largest fbBase fbSize kernelEnd) := by
  obtain ⟨largest, hl, hroom, hsize, heq⟩ := pmmInit_ok h
  refine ⟨largest, hl, ?_⟩
  rw [hsize, ← hlay.usable_iff hl hroom, heq]
  exact forall₂_congr fun f hf => iff_congr (pmmInitAccesses_free memory hf) Iff.rfl

/-- The 63 free pages, with a kernel of four pages that covers the bitmap. -/
theorem pmmInit_free_small : ∃ pm, pmmInit (fun _ => 0#64) smallMap 0 0 (3 * pageSize + 1) = .ok pm ∧
    ∀ f < pm.bitmapSize * bitmapElementSize, pm.used f = false ↔
      UsableFrame smallMap ⟨mmapFree, pageSize, 63⟩ 0 0 (3 * pageSize + 1) f := by
  obtain ⟨pm, hinit⟩ : ∃ pm, pmmInit (fun _ => 0#64) smallMap 0 0 (3 * pageSize + 1) = .ok pm := ⟨_, rfl⟩
  have hfree : ∀ desc ∈ smallMap, desc.type = mmapFree → desc = ⟨mmapFree, pageSize, 63⟩ := by
    intro desc hdesc hfree
    rcases List.mem_cons.mp hdesc with rfl | hdesc
    · rfl
    · rw [List.mem_singleton.mp hdesc] at hfree
      cases hfree
  have hlay : MemoryLayout smallMap 0 0 (3 * pageSize + 1) := by
    refine ⟨by decide, fun desc hdesc htype f hf => ?_, by decide, by decide⟩
    rw [hfree desc hdesc htype] at hf
    exact hf.2
  obtain ⟨largest, hl, hiff⟩ := pmmInit_free_iff hlay hinit
  cases hl
  refine ⟨pm, hinit, hiff.mpr ⟨fun _ => by decide, ?_, fun h => absurd h (by decide), ?_⟩⟩
  · rintro f - ⟨a, -, hlt, -⟩
    omega
  · intro desc hdesc htype hstart
    rw [hfree desc hdesc htype] at hstart
    cases hstart

/-- 64 pages of the firmware and 64 free ones: the bitmap lies in frame 64, which is free. -/
theorem pmmInit_frees_bitmap : MemoryLayout [⟨0, 0, 64⟩, ⟨mmapFree, 64 * pageSize, 64⟩] 0 0 (10 * pageSize + 1) ∧
    ∃ pm, pmmInit (fun _ => 0#64) [⟨0, 0, 64⟩, ⟨mmapFree, 64 * pageSize, 64⟩] 0 0 (10 * pageSize + 1) = .ok pm ∧
      64 < pm.bitmapSize * bitmapElementSize ∧ pm.used 64 = false ∧
      ¬ UsableFrame [⟨0, 0, 64⟩, ⟨mmapFree, 64 * pageSize, 64⟩] ⟨mmapFree, 64 * pageSize, 64⟩ 0 0 (10 * pageSize + 1) 64 := by
  refine ⟨⟨by decide, fun desc hdesc htype f hf => ?_, by decide, by decide⟩, _, rfl, by decide, by decide, fun hu => ?_⟩
  · rcases List.mem_cons.mp hdesc with rfl | hdesc
    · cases htype
    · rw [List.mem_singleton.mp hdesc] at hf
      exact hf.2
  · exact hu.offBitmap ⟨64 * pageSize, le_refl _, by decide, by decide⟩

end OmegaOS
