import OmegaOS.Common
import OmegaOS.Lib.ByteMem

/-!
# The kernel heap

`mem/heap.c` on a memory of bytes. Every chunk is in the circular list `all`, in address order; a free chunk is also in one of
the lists of `g_freeChunks`, whose links lie in the chunk's payload. The lock is left out: the functions run one at a time.
-/

namespace OmegaOS

open ByteMem Function

/-! ## `DList_t` -/

/-- `d->next`. -/
def nextPtr (m : Mem) (d : Nat) : Nat := load m d 8

/-- `d->prev`. -/
def prevPtr (m : Mem) (d : Nat) : Nat := load m (d + 8) 8

def setNextPtr (m : Mem) (d v : Nat) : Mem := store m d 8 v

def setPrevPtr (m : Mem) (d v : Nat) : Mem := store m (d + 8) 8 v

/-- `dlist_init`. -/
def dlistInit (m : Mem) (dlist : Nat) : Mem := setPrevPtr (setNextPtr m dlist dlist) dlist dlist

/-- `dlist_insert_after`. -/
def dlistInsertAfter (m : Mem) (d1 d2 : Nat) : Mem :=
  let n1 := nextPtr m d1
  let e2 := prevPtr m d2
  let m := setNextPtr m d1 d2
  let m := setPrevPtr m d2 d1
  let m := setNextPtr m e2 n1
  setPrevPtr m n1 e2

/-- `dlist_insert_before`. -/
def dlistInsertBefore (m : Mem) (d1 d2 : Nat) : Mem :=
  let e1 := prevPtr m d1
  let e2 := prevPtr m d2
  let m := setNextPtr m e1 d2
  let m := setPrevPtr m d2 e1
  let m := setNextPtr m e2 d1
  setPrevPtr m d1 e2

/-- `dlist_remove`. -/
def dlistRemove (m : Mem) (d : Nat) : Mem :=
  let m := setNextPtr m (prevPtr m d) (nextPtr m d)
  let m := setPrevPtr m (nextPtr m d) (prevPtr m d)
  let m := setNextPtr m d d
  setPrevPtr m d d

/-- `dlist_push`; the result is the new head. -/
def dlistPush (m : Mem) (head d2 : Nat) : Nat × Mem :=
  let m := if head ≠ null then dlistInsertBefore m head d2 else m
  (d2, m)

/-- `dlist_pop`; the results are the node and the new head. -/
def dlistPop (m : Mem) (head : Nat) : Nat × Nat × Mem :=
  let d2 := nextPtr m head
  let m := dlistRemove m head
  (head, if head = d2 then null else d2, m)

/-- `dlist_remove_from`; the result is the new head. -/
def dlistRemoveFrom (m : Mem) (head d2 : Nat) : Nat × Mem :=
  if head = d2 then
    let (_, head, m) := dlistPop m head
    (head, m)
  else (head, dlistRemove m d2)

/-! ## `Chunk_t` -/

/-- `HEADER_SIZE`, the offset of `data` and of `free`. The links `all` are at offset 0. -/
def headerSize : Nat := 24

/-- `sizeof(Chunk_t)`. -/
def chunkStructSize : Nat := 40

/-- `MIN_SIZE`. -/
def minSize : Nat := 16

/-- `ALIGN`. -/
def heapAlign : Nat := 4

/-- `NUM_SIZES`. -/
def numSizes : Nat := 32

/-- `chunk->used`. -/
def chunkUsed (m : Mem) (chunk : Nat) : Nat := load m (chunk + 16) 4

def setChunkUsed (m : Mem) (chunk v : Nat) : Mem := store m (chunk + 16) 4 v

/-- The heap's memory and its global variables. -/
structure Heap where
  mem : Mem
  /-- `g_freeChunks`. -/
  freeChunks : Nat → Nat
  /-- `g_first`. -/
  first : Nat
  /-- `g_last`. -/
  last : Nat

/-- `memory_chunk_init`. -/
def memoryChunkInit (m : Mem) (chunk : Nat) : Mem :=
  let m := dlistInit m chunk
  let m := setChunkUsed m chunk 0
  dlistInit m (chunk + headerSize)

/-- `memory_chunk_size`, on 64-bit operands. -/
def memoryChunkSize (m : Mem) (chunk : Nat) : Nat :=
  (nextPtr m chunk + (2 ^ 64 - chunk) + (2 ^ 64 - headerSize)) % 2 ^ 64

/-- The loop of `memory_chunk_slot`; a 64-bit size is halved at most 64 times. -/
def memoryChunkSlotLoop : Nat → Int → Nat → Int
  | 0, n, _ => n
  | fuel + 1, n, size => if 0 < size then memoryChunkSlotLoop fuel (n + 1) (size / 2) else n

/-- `memory_chunk_slot`. -/
def memoryChunkSlot (size : Nat) : Int := memoryChunkSlotLoop 64 (-1) size

/-! ## The free lists -/

/-- `DLIST_PUSH(&g_freeChunks[n], v, free)`. -/
def freeListPush (hp : Heap) (n v : Nat) : Heap :=
  let head := if hp.freeChunks n = null then null else hp.freeChunks n + headerSize
  let (head, m) := dlistPush hp.mem head (v + headerSize)
  { hp with mem := m, freeChunks := update hp.freeChunks n (head - headerSize) }

/-- `DLIST_REMOVE_FROM(&g_freeChunks[n], d, free)`. -/
def freeListRemoveFrom (hp : Heap) (n d : Nat) : Heap :=
  let (head, m) := dlistRemoveFrom hp.mem (hp.freeChunks n + headerSize) (d + headerSize)
  { hp with mem := m, freeChunks := update hp.freeChunks n (if head = null then null else head - headerSize) }

/-- `DLIST_POP(&g_freeChunks[n], free)`. -/
def freeListPop (hp : Heap) (n : Nat) : Nat × Heap :=
  let (res, head, m) := dlistPop hp.mem (hp.freeChunks n + headerSize)
  (res - headerSize,
    { hp with mem := m, freeChunks := update hp.freeChunks n (if head = null then null else head - headerSize) })

/-- `remove_free`. -/
def removeFree (hp : Heap) (chunk : Nat) : Heap :=
  let len := memoryChunkSize hp.mem chunk
  let n := memoryChunkSlot len
  freeListRemoveFrom hp n.toNat chunk

/-- `push_free`. -/
def pushFree (hp : Heap) (chunk : Nat) : Heap :=
  let len := memoryChunkSize hp.mem chunk
  let n := memoryChunkSlot len
  freeListPush hp n.toNat chunk

/-! ## Allocation -/

/-- `KERNEL_HEAP_START`. -/
def kernelHeapStart : Nat := 0xFFFFFFFF80000000

/-- `KERNEL_HEAP_SIZE`. -/
def kernelHeapSize : Nat := 1024 * pageSize

/-- `heap_init`, on the memory that the pages of the heap hold. The bounds are multiples of `ALIGN` already. -/
def heapInit (m : Mem) : Heap :=
  let memStart := kernelHeapStart
  let memEnd := kernelHeapStart + kernelHeapSize
  let first := memStart
  let second := first + chunkStructSize
  let last := memEnd - chunkStructSize
  let m := memoryChunkInit m first
  let m := memoryChunkInit m second
  let m := memoryChunkInit m last
  let m := dlistInsertAfter m first second
  let m := dlistInsertAfter m second last
  let m := setChunkUsed m first 1
  let m := setChunkUsed m last 1
  pushFree { mem := m, freeChunks := fun _ => null, first := first, last := last } second

/-- The loop of `kmalloc` over the lists from `n` on, of which `fuel` are left. -/
def findFreeList (freeChunks : Nat → Nat) : Nat → Nat → Option Nat
  | 0, _ => none
  | fuel + 1, n => if freeChunks n ≠ null then some n else findFreeList freeChunks fuel (n + 1)

/-- The size `kmalloc` looks for: rounded up to a multiple of `ALIGN`, in 64 bits, and at least `MIN_SIZE`. -/
def kmallocSize (size : Nat) : Nat :=
  let size := (size + heapAlign - 1) % 2 ^ 64 / heapAlign * heapAlign
  if size < minSize then minSize else size

/-- The end of `kmalloc`: a chunk of `size` bytes is split off when the rest makes a chunk of its own. -/
def splitChunk (hp : Heap) (chunk size : Nat) : Heap :=
  let size2 := memoryChunkSize hp.mem chunk
  if size + chunkStructSize ≤ size2 then
    let chunk2 := chunk + headerSize + size
    let m := memoryChunkInit hp.mem chunk2
    let m := dlistInsertAfter m chunk chunk2
    pushFree { hp with mem := m } chunk2
  else hp

/-- `kmalloc`. -/
def kmalloc (hp : Heap) (size : Nat) : Nat × Heap :=
  let size := kmallocSize size
  let n := (memoryChunkSlot (size - 1) + 1).toNat
  if numSizes ≤ n then (null, hp)
  else
    match findFreeList hp.freeChunks (numSizes - n) n with
    | none => (null, hp)
    | some n =>
      let (chunk, hp) := freeListPop hp n
      let hp := splitChunk hp chunk size
      (chunk + headerSize, { hp with mem := setChunkUsed hp.mem chunk 1 })

/-- The first half of `kfree`: a free chunk behind `chunk` is joined to it. -/
def joinNext (hp : Heap) (next : Nat) : Heap :=
  if chunkUsed hp.mem next = 0 then
    let hp := removeFree hp next
    { hp with mem := dlistRemove hp.mem next }
  else hp

/-- `kfree`. -/
def kfree (hp : Heap) (addr : Nat) : Except Halt Heap :=
  if addr = null then .ok hp
  else do
    let chunk := addr - headerSize
    assert (chunkUsed hp.mem chunk != 0) "chunk->used"
    let next := nextPtr hp.mem chunk
    let prev := prevPtr hp.mem chunk
    let hp := joinNext hp next
    if chunkUsed hp.mem prev = 0 then
      let hp := removeFree hp prev
      let hp := { hp with mem := dlistRemove hp.mem chunk }
      return pushFree hp prev
    else
      let m := setChunkUsed hp.mem chunk 0
      let m := dlistInit m (chunk + headerSize)
      return pushFree { hp with mem := m } chunk

/-- `krealloc`. `memcpy` goes upwards, and the new block does not start inside the old one, so each byte is read as it was. -/
def krealloc (hp : Heap) (addr ns : Nat) : Except Halt (Nat × Heap) :=
  if addr = null then .ok (null, hp)
  else do
    let chunk := addr - headerSize
    let chunkSize := memoryChunkSize hp.mem chunk
    let (ptr, hp) := kmalloc hp ns
    if ptr = null then return (null, hp)
    else
      let hp := { hp with mem := copy hp.mem ptr hp.mem addr chunkSize }
      let hp ← kfree hp addr
      return (ptr, hp)

end OmegaOS
