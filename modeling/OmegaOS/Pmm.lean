import OmegaOS.Common

/-!
# The physical memory manager

`mem/pmm.c`: a bitmap with one bit for each frame, set when the frame is used, searched from a hint word on. The lock is left
out: the functions run one at a time. Words past the end of the bitmap are the memory behind it, which the search never reads.
-/

namespace OmegaOS

open Function

/-- The manager's state. -/
structure Pmm where
  /-- `g_bitmap`. -/
  bitmap : Nat → BitVec 64
  /-- `g_bitmapSize`, in words. -/
  bitmapSize : Nat
  /-- `g_lastFoundBitmap`: the word the next search starts at. -/
  lastFoundBitmap : Nat

/-- `g_bitmapElementSize`. -/
def bitmapElementSize : Nat := 64

/-- `setFrame`. -/
def setFrame (pm : Pmm) (index : Nat) : Pmm :=
  let pIndex := index / bitmapElementSize
  let pBit := index % bitmapElementSize
  { pm with bitmap := update pm.bitmap pIndex (pm.bitmap pIndex ||| (1#64 <<< pBit)) }

/-- `clearFrame`. -/
def clearFrame (pm : Pmm) (index : Nat) : Pmm :=
  let pIndex := index / bitmapElementSize
  let pBit := index % bitmapElementSize
  { pm with bitmap := update pm.bitmap pIndex (pm.bitmap pIndex &&& ~~~(1#64 <<< pBit)) }

/-- `testFrame`. -/
def testFrame (pm : Pmm) (i bit : Nat) : Bool := (pm.bitmap i &&& (1#64 <<< bit)) != 0#64

/-! ## The search -/

/-- The variables of the loops of `getFrames`. -/
structure Search where
  fbFound : Bool
  index : Nat
  bCopy : Nat

/-- The inner loop, over the bits of word `i`. It leaves by `goto found` with the index of the first frame. -/
def searchBits (pm : Pmm) (frames i : Nat) : List Nat → Search → Except Nat Search
  | [], s => .ok s
  | j :: js, s =>
    if !testFrame pm i j then
      let s := if !s.fbFound then { s with fbFound := true, index := i * bitmapElementSize + j } else s
      let s := { s with bCopy := s.bCopy - 1 }
      if s.bCopy = 0 then .error s.index else searchBits pm frames i js s
    else
      let s := if s.fbFound then { s with fbFound := false, bCopy := frames } else s
      searchBits pm frames i js s

/-- The outer loop, over the words: a completely used word is passed over, with the variables as they are. It returns the word
of the last frame and the index of the first. -/
def searchWords (pm : Pmm) (frames : Nat) : List Nat → Search → Option (Nat × Nat)
  | [], _ => none
  | i :: is, s =>
    if pm.bitmap i ≠ BitVec.allOnes 64 then
      match searchBits pm frames i (List.range bitmapElementSize) s with
      | .error index => some (i, index)
      | .ok s => searchWords pm frames is s
    else searchWords pm frames is s

/-- The two loops, from a word on. -/
def searchFrom (pm : Pmm) (frames start : Nat) : Option (Nat × Nat) :=
  searchWords pm frames (List.range' start (pm.bitmapSize - start)) ⟨false, 0, frames⟩

/-- `getFrames`; `none` is `INVALID_FRAME_INDEX`. The recursive call is made with the hint 0 and makes no other. -/
def getFrames (pm : Pmm) (frames : Nat) : Option Nat × Pmm :=
  match searchFrom pm frames pm.lastFoundBitmap with
  | some (i, index) => (some index, { pm with lastFoundBitmap := i })
  | none =>
    if pm.lastFoundBitmap = 0 then (none, pm)
    else
      match searchFrom pm frames 0 with
      | some (i, index) => (some index, { pm with lastFoundBitmap := i })
      | none => (none, { pm with lastFoundBitmap := 0 })

/-! ## Allocation and release -/

/-- `pmm_getFrames`: the address of the first frame, or `NULL`. -/
def pmmGetFrames (pm : Pmm) (count : Nat) : Nat × Pmm :=
  if count = 0 then (null, pm)
  else
    match getFrames pm count with
    | (none, pm) => (null, pm)
    | (some index, pm) => (index * pageSize, (List.range count).foldl (fun pm i => setFrame pm (index + i)) pm)

/-- `pmm_getFrame`. -/
def pmmGetFrame (pm : Pmm) : Nat × Pmm := pmmGetFrames pm 1

/-- `pmm_releaseFrames`. The assertion compares a frame index with the number of words, and the hint becomes a frame index. -/
def pmmReleaseFrames (pm : Pmm) (addr count : Nat) : Except Halt Pmm := do
  assert (addr % pageSize == 0 && decide (addr / pageSize ≤ pm.bitmapSize))
    "index % PAGE_SIZE == 0 && index / PAGE_SIZE <= g_bitmapSize"
  return (List.range count).foldl (fun pm i => clearFrame pm (addr / pageSize + i)) { pm with lastFoundBitmap := addr / pageSize }

/-- `pmm_releaseFrame`. -/
def pmmReleaseFrame (pm : Pmm) (addr : Nat) : Except Halt Pmm := pmmReleaseFrames pm addr 1

/-- `pmm_reserveRegion`. -/
def pmmReserveRegion (pm : Pmm) (start pc : Nat) : Pmm :=
  let roundedStart := rndwn start pageSize
  (List.range pc).foldl (fun pm i => setFrame pm ((roundedStart + i * pageSize) % 2 ^ 64 / pageSize)) pm

/-- `pmm_unreserveRegion`. -/
def pmmUnreserveRegion (pm : Pmm) (start pc : Nat) : Pmm :=
  let roundedStart := rndup start pageSize
  (List.range pc).foldl (fun pm i => clearFrame pm ((roundedStart + i * pageSize) % 2 ^ 64 / pageSize)) pm

/-! ## Initialization -/

/-- `MemoryDescriptor_t`, an entry of the memory map that the firmware gives. -/
structure MemoryDescriptor where
  type : Nat
  physicalStart : Nat
  numberOfPages : Nat

/-- `MMAP_FREE`. -/
def mmapFree : Nat := 7

/-- The largest free region, the first one of its size. -/
def largestSegment (mmap : List MemoryDescriptor) : Option MemoryDescriptor :=
  mmap.foldl (fun largest desc =>
    if desc.type = mmapFree ∧ (largest.map (·.numberOfPages)).getD 0 < desc.numberOfPages then some desc else largest) none

/-- `pmm_getMemorySize`. -/
def pmmGetMemorySize (mmap : List MemoryDescriptor) : Nat :=
  mmap.foldl (fun memorySize desc => (memorySize + desc.numberOfPages * pageSize) % 2 ^ 64) 0

/-- `pmm_init`, with what lies in memory where the bitmap is placed, the framebuffer and the end of the kernel. -/
def pmmInit (memory : Nat → BitVec 64) (mmap : List MemoryDescriptor) (fbBase fbSize kernelEnd : Nat) : Except Halt Pmm := do
  match largestSegment mmap with
  | none => .error (.assertion "largestSegment && largestMemSegment != 0")
  | some largest =>
    let bitmapSize := pmmGetMemorySize mmap / pageSize / bitmapElementSize
    let bitmapSizeInBytes := bitmapSize * 8
    assert (decide (bitmapSizeInBytes < largest.numberOfPages)) "bitmapSizeInBytes < largestMemSegment"
    let bitmap := fun i => if i < bitmapSize then BitVec.allOnes 64 else memory i
    let pm : Pmm := { bitmap := bitmap, bitmapSize := bitmapSize, lastFoundBitmap := 0 }
    let pm := mmap.foldl (fun pm desc =>
      if desc.type = mmapFree then pmmUnreserveRegion pm desc.physicalStart desc.numberOfPages else pm) pm
    let pm := pmmReserveRegion pm largest.physicalStart (bitmapSizeInBytes / pageSize)
    let pm := pmmReserveRegion pm fbBase (fbSize / pageSize)
    return pmmReserveRegion pm 0 (kernelEnd / pageSize + 1)

end OmegaOS
