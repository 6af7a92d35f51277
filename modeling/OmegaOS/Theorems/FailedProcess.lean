import OmegaOS.Lemmas.Vmm
import OmegaOS.ProcessMemory
import OmegaOS.Theorems.FrameSearch

/-!
# A process that could not be created

`process_create` takes a frame before anything else, and no path of it gives a frame back: `vmm_destroyAddressSpace` returns at once.
So a call that returns `NULL` has changed nothing only when there was no frame to begin with.
-/

namespace OmegaOS

open CStr X86

variable {pg pg' : Paging} {table pml4 addr : Nat} {index phys virt attr : PageWord}

/-! ## What the kernel holds -/

namespace InMemory

/-- The values of a list, from the node `n` on. -/
def listValues (hp : Heap) : Nat → Nat → List Nat
  | 0, _ => []
  | fuel + 1, n => if n = null then [] else get hp (n + 16) :: listValues hp fuel (get hp n)

/-- The nodes of a tree below `node`, each with its value and its parent. -/
def treeLinks (hp : Heap) : Nat → Nat → List (Nat × Nat × Nat)
  | 0, _ => []
  | fuel + 1, node =>
    if node = null then []
    else (node, get hp node, get hp (node + 16)) :: (listValues hp fuel (get hp (get hp (node + 8)))).flatMap (treeLinks hp fuel)

/-- The data of a queue, from the node `n` on. -/
def queueValues (hp : Heap) : Nat → Nat → List Nat
  | 0, _ => []
  | fuel + 1, n => if n = null then [] else get hp n :: queueValues hp fuel (get hp (n + 8))

/-- The blocks in use, from `chunk` on, each with its size. -/
def liveBlocks (hp : Heap) : Nat → Nat → List (Nat × Nat)
  | 0, _ => []
  | fuel + 1, chunk =>
    if chunk = hp.last then []
    else
      let rest := liveBlocks hp fuel (nextPtr hp.mem chunk)
      if chunkUsed hp.mem chunk = 0 then rest else (chunk + headerSize, memoryChunkSize hp.mem chunk) :: rest

/-- The bitmap, the process tree, the ready queues and the live blocks are the same, however far the lists are followed. -/
structure Released (k k' : Kernel) : Prop where
  bitmap : ∀ f < k.pg.pm.bitmapSize * bitmapElementSize, k'.pg.pm.used f = k.pg.pm.used f
  tree : ∀ fuel, treeLinks k'.heap fuel (get k'.heap k'.processTree) = treeLinks k.heap fuel (get k.heap k.processTree)
  ready : ∀ fuel, ∀ i < 4, queueValues k'.heap fuel (get k'.heap (get k'.heap (k'.processQueues + 8 * i))) =
    queueValues k.heap fuel (get k.heap (get k.heap (k.processQueues + 8 * i)))
  live : ∀ fuel, liveBlocks k'.heap fuel k'.heap.first = liveBlocks k.heap fuel k.heap.first

end InMemory

/-- Every frame of the bitmap is used. -/
def Pmm.Full (pm : Pmm) : Prop := ∀ f < pm.bitmapSize * bitmapElementSize, pm.used f = true

/-! ## Used frames stay used -/

theorem vmmCreatePage_kept (h : vmmCreatePage pg pml4 virt attr = .ok (addr, pg')) : FramesKept pg.pm pg'.pm := by
  rw [vmmCreatePage] at h
  by_cases hnull : (pmmGetFrame pg.pm).1 = null
  · simp only [hnull, if_true] at h
    cases h
    exact pmmGetFrames_kept pg.pm 1
  · simp only [if_neg hnull] at h
    obtain ⟨pg1, hmap, h⟩ := bind_eq_ok.mp h
    cases h
    exact (pmmGetFrames_kept pg.pm 1).trans (vmmMapPage_kept hmap)

theorem createPagesFrom_kept (pages : Nat) {pg : Paging} {i last : Nat}
    (h : createPagesFrom pg pml4 virt attr i last pages = .ok (addr, pg')) : FramesKept pg.pm pg'.pm := by
  induction pages generalizing pg i last with
  | zero =>
    obtain ⟨-, rfl⟩ := Prod.mk.inj (Except.ok.inj h)
    exact .refl pg.pm
  | succ pages ih =>
    rw [createPagesFrom] at h
    obtain ⟨⟨addr1, pg1⟩, hpage, h⟩ := bind_eq_ok.mp h
    by_cases hnull : addr1 = null
    · simp only [hnull, if_true] at h
      cases h
      exact vmmCreatePage_kept hpage
    · simp only [if_neg hnull] at h
      exact (vmmCreatePage_kept hpage).trans (ih h)

/-! ## The first frame -/

/-- `pmm_getFrame` finds every frame used, or sets the bit of one that was clear. -/
theorem pmmGetFrame_full_or_takes (pm : Pmm) : (pmmGetFrame pm).1 = null ∧ pm.Full ∨
      ∃ f < pm.bitmapSize * bitmapElementSize, pm.used f = false ∧ (pmmGetFrame pm).2.used f = true := by
  rcases pmmGetFrame_spec pm with ⟨f, pm', heq, htaken, hlow⟩ | hfull
  · right
    have hset : pm'.used f = true := by
      rw [htaken.bits f]
      simp
    rw [heq]
    rcases hlow with hlow | ⟨-, hlow⟩
    · exact ⟨f, hlow.inside.2, hlow.clear, hset⟩
    · exact ⟨f, hlow.inside.2, hlow.clear, hset⟩
  · exact .inl hfull

/-- `vmm_createAddressSpace` keeps what `pmm_getFrame` took, and gives `NULL` with it. -/
theorem vmmCreateAddressSpace_frame (h : vmmCreateAddressSpace pg table = .ok (pml4, pg')) :
    (∀ f, (pmmGetFrame pg.pm).2.used f = true → pg'.pm.used f = true) ∧ ((pmmGetFrame pg.pm).1 = null → pml4 = null) := by
  rw [vmmCreateAddressSpace] at h
  obtain ⟨⟨root, pg1⟩, hpage, h⟩ := bind_eq_ok.mp h
  have hroot : pg'.pm = pg1.pm ∧ (root = null → pml4 = null) := by
    by_cases hnull : root = null
    · simp only [hnull, if_true] at h
      cases h
      exact ⟨rfl, fun _ => rfl⟩
    · simp only [if_neg hnull] at h
      cases h
      exact ⟨rfl, fun h => h⟩
  rw [hroot.1]
  rw [vmmCreateIdentityPage] at hpage
  by_cases hnull : (pmmGetFrame pg.pm).1 = null
  · simp only [hnull, if_true] at hpage
    cases hpage
    exact ⟨fun _ hf => hf, fun _ => hroot.2 rfl⟩
  · simp only [if_neg hnull] at hpage
    obtain ⟨pg2, hmap, hpage⟩ := bind_eq_ok.mp hpage
    cases hpage
    exact ⟨(vmmMapPage_kept hmap).used, fun h => absurd h hnull⟩

namespace InMemory

variable {k k' : Kernel} {parent process fuel : Nat} {name : Str} {entry stackButtom stackSize cs ds : Word} {priority : BitVec 32}

theorem createProcess_pg
    (h : createProcess k name pml4 entry priority stackButtom stackSize cs ds fuel = .ok (process, k')) : k'.pg = k.pg := by
  unfold createProcess at h
  dsimp only at h
  split at h
  · cases h
    rfl
  split at h
  · obtain ⟨hp, -, h⟩ := bind_eq_ok.mp h
    cases h
    rfl
  split at h
  · obtain ⟨hp, -, h⟩ := bind_eq_ok.mp h
    cases h
    rfl
  · cases h
    rfl

/-- `process_create` makes an address space first; it gives up at once when that is `NULL`, and gives no frame back. -/
theorem processCreate_space (h : processCreate k parent name entry priority fuel = .ok (process, k')) :
    ∃ pml4 pg, vmmCreateAddressSpace k.pg (get k.heap (parent + 176)) = .ok (pml4, pg) ∧
      (pml4 = null → k' = { k with pg := pg }) ∧ FramesKept pg.pm k'.pg.pm := by
  rw [processCreate] at h
  obtain ⟨⟨pml4, pg⟩, hspace, h⟩ := bind_eq_ok.mp h
  refine ⟨pml4, pg, hspace, ?_⟩
  by_cases hpml4 : pml4 = null
  · simp only [hpml4, if_true] at h
    cases h
    exact ⟨fun _ => rfl, .refl pg.pm⟩
  simp only [if_neg hpml4] at h
  refine ⟨fun hnull => absurd hnull hpml4, ?_⟩
  obtain ⟨⟨addr, pg1⟩, hpages, h⟩ := bind_eq_ok.mp h
  have hkept := createPagesFrom_kept _ hpages
  by_cases haddr : addr = null
  · simp only [haddr, if_true] at h
    cases h
    exact hkept
  simp only [if_neg haddr] at h
  obtain ⟨⟨process1, k1⟩, hcreate, h⟩ := bind_eq_ok.mp h
  have hpg : k1.pg = pg1 := createProcess_pg hcreate
  have hend : k'.pg = k1.pg := by
    by_cases hprocess : process1 = null
    · simp only [hprocess, if_true] at h
      cases h
      rfl
    · simp only [if_neg hprocess] at h
      obtain ⟨⟨process2, hp⟩, -, h⟩ := bind_eq_ok.mp h
      cases h
      rfl
  rwa [hend, hpg]

/-- A call that returns `NULL` leaves everything as it was if and only if there was no free frame. -/
theorem failed_create_released_iff (h : processCreate k parent name entry priority fuel = .ok (null, k')) :
    Released k k' ↔ k.pg.pm.Full := by
  obtain ⟨pml4, pg, hspace, hnull, hkept⟩ := processCreate_space h
  obtain ⟨hframe, hfail⟩ := vmmCreateAddressSpace_frame hspace
  constructor
  · intro hrel
    rcases pmmGetFrame_full_or_takes k.pg.pm with ⟨-, hfull⟩ | ⟨f, hf, hclear, htaken⟩
    · exact hfull
    · -- the frame that was taken is still taken at the end
      have hused : k'.pg.pm.used f = true := hkept.used f (hframe f htaken)
      rw [hrel.bitmap f hf, hclear] at hused
      cases hused
  · intro hfull
    have hnone : (pmmGetFrame k.pg.pm).1 = null := by
      rcases pmmGetFrame_full_or_takes k.pg.pm with ⟨hnone, -⟩ | ⟨f, hf, hclear, -⟩
      · exact hnone
      · rw [hfull f hf] at hclear
        cases hclear
    have hused : ∀ f < k.pg.pm.bitmapSize * bitmapElementSize, k'.pg.pm.used f = k.pg.pm.used f := by
      intro f hf
      rw [hfull f hf]
      exact hkept.used f (hframe f (pmmGetFrames_used 1 (hfull f hf)))
    rw [hnull (hfail hnone)] at hused ⊢
    exact ⟨hused, fun _ => rfl, fun _ _ _ => rfl, fun _ => rfl⟩

/-! ## Little memory -/

/-- The kernel's tables for the first 64 frames: each is mapped to itself. -/
def lowTables (table : Nat) (index : PageWord) : PageWord :=
  if table = 0x4000 then setEntry 0 index vmmKernelAttributes
  else if index = 0 ∧ (table = 0x1000 ∨ table = 0x2000 ∨ table = 0x3000) then
    setEntry 0 (BitVec.ofNat 64 (table / pageSize + 1)) vmmUserAttributes
  else 0

/-- A heap that holds one process, and its address. -/
def idleHeap : Nat × Heap :=
  let (idle, hp) := kmalloc (heapInit fun _ => 0) 520
  (idle, put hp (idle + 176) 0x1000)

/-- 64 frames, of which `used` are in use. -/
def lowMemory (used : BitVec 64) : Kernel :=
  { pg := { pm := { bitmap := fun _ => used, bitmapSize := 1, lastFoundBitmap := 0 }, tables := lowTables }
    heap := idleHeap.2, nextID := 2, processTree := idleHeap.1 + 0x1000, processQueues := idleHeap.1 + 0x2000
    stdinRead := 0x100000, stdoutWrite := 0x101000 }

/-- The idle process creates the shell. -/
def createShellIn (used : BitVec 64) : Except Halt (Nat × Kernel) :=
  processCreate (lowMemory used) idleHeap.1 [0x73, 0x68] 0x400000 3 8

/-- Without a free frame the call changes nothing. -/
theorem failed_create_released_full : ∃ k', createShellIn (BitVec.allOnes 64) = .ok (null, k') ∧ Released (lowMemory (BitVec.allOnes 64)) k' := by
  have hfull : ∀ f < 1 * bitmapElementSize, (lowMemory (BitVec.allOnes 64)).pg.pm.used f = true := by decide +kernel
  exact exists_ok_fst (by decide +kernel) fun k' h => (failed_create_released_iff h).mpr hfull

/-- With one free frame the address space takes it and the stack finds none: `NULL` is returned, and the frame stays in use. -/
theorem failed_create_leaks : ∃ k', createShellIn 0xFFFFFFFFFFFFFFDF = .ok (null, k') ∧
    (lowMemory 0xFFFFFFFFFFFFFFDF).pg.pm.used 5 = false ∧ k'.pg.pm.used 5 = true ∧ ¬ Released (lowMemory 0xFFFFFFFFFFFFFFDF) k' := by
  have hrun : (createShellIn 0xFFFFFFFFFFFFFFDF).map (fun r => (r.1, r.2.pg.pm.used 5)) = .ok (null, true) := by decide +kernel
  obtain ⟨⟨process, k'⟩, hok, hres⟩ := map_eq_ok hrun
  obtain ⟨rfl, hused⟩ := Prod.mk.inj hres
  have hclear : (lowMemory 0xFFFFFFFFFFFFFFDF).pg.pm.used 5 = false := by decide +kernel
  refine ⟨k', hok, hclear, hused, fun hrel => ?_⟩
  have hsame := hrel.bitmap 5 (by decide)
  rw [hused, hclear] at hsame
  cases hsame

end InMemory

end OmegaOS
