import Mathlib.Data.Finset.Card
import Mathlib.Data.Finset.Range
import OmegaOS.Lemmas.Ext2Ledger
import OmegaOS.Theorems.DirectoryCreate

/-!
# The free counters of the groups

The counters say how many bits of the bitmaps are clear, and allocation keeps them so: every block and every inode that is handed out is
one bit that was clear, so none is handed out twice.
-/

namespace OmegaOS

open ByteMem CStr List Ext2

variable {fs fs' : Ext2} {pool : Pool} {ts : List (Pool × Nat × Nat)} {j b i : Nat} {call : AllocCall} {handed : List (Pool × Nat)}
  {calls : List AllocCall}

/-! ## Counters and bits -/

/-- The clear bits of the bitmap of a group. -/
def Ext2.clearBits (fs : Ext2) (pool : Pool) (i : Nat) : Finset Nat :=
  (Finset.range (8 * fs.blockSize)).filter fun b => fs.bit pool i b = false

/-- Every counter is the number of clear bits, and the bits that stand for nothing are set. -/
structure FreeCounted (fs : Ext2) : Prop where
  counts : ∀ pool i, i < fs.groupCount → fs.freeCount pool i = (fs.clearBits pool i).card
  padding : ∀ pool i b, i < fs.groupCount → fs.perGroup pool ≤ b → b < 8 * fs.blockSize → fs.bit pool i b = true

theorem FreeCounted.kept (h : FreeCounted fs) (hk : BitmapsKept fs fs') : FreeCounted fs' := by
  have hs := hk.shape
  refine ⟨fun pool i hi => ?_, fun pool i b hi hlo hhi => ?_⟩
  · rw [hs.groupCount] at hi
    rw [hk.freeCount, h.counts pool i hi, clearBits, clearBits, hs.blockSize]
    simp only [hk.bit pool hi]
  · rw [hs.groupCount] at hi
    rw [hs.perGroup] at hlo
    rw [hs.blockSize] at hhi
    rw [hk.bit pool hi]
    exact h.padding pool i b hi hlo hhi

theorem BitTaken.clearBits (h : BitTaken fs fs' pool j b) (pool' : Pool) (hi : i < fs.groupCount) :
    fs'.clearBits pool' i = if (pool', i) = (pool, j) then (fs.clearBits pool' i).erase b else fs.clearBits pool' i := by
  ext c
  have hclear : c ∈ fs'.clearBits pool' i ↔ c < 8 * fs.blockSize ∧ fs.bit pool' i c = false ∧ ¬ (pool' = pool ∧ i = j ∧ c = b) := by
    rw [Ext2.clearBits, Finset.mem_filter, Finset.mem_range, h.shape.blockSize]
    refine and_congr_right fun hc => ?_
    rw [h.bits pool' i c hi hc, Bool.or_eq_false_iff, decide_eq_false_iff_not]
  rw [hclear]
  split
  · rename_i he
    cases he
    simp only [Ext2.clearBits, Finset.mem_erase, Finset.mem_filter, Finset.mem_range, true_and]
    tauto
  · rename_i hne
    have hnot : ¬ (pool' = pool ∧ i = j ∧ c = b) := fun he => hne (Prod.ext he.1 he.2.1)
    simp only [Ext2.clearBits, Finset.mem_filter, Finset.mem_range, hnot, not_false_eq_true, and_true]

theorem FreeCounted.taken (h : FreeCounted fs) (ht : BitTaken fs fs' pool j b) : FreeCounted fs' := by
  have hs := ht.shape
  refine ⟨fun pool' i hi => ?_, fun pool' i c hi hlo hhi => ?_⟩
  · rw [hs.groupCount] at hi
    rw [ht.clearBits pool' hi]
    split
    · rename_i he
      obtain ⟨rfl, rfl⟩ := Prod.mk.inj he
      have hmem : b ∈ fs.clearBits pool' i := Finset.mem_filter.mpr ⟨Finset.mem_range.mpr ht.inBitmap, ht.clear⟩
      have hcounted := ht.counted
      rw [h.counts pool' i hi] at hcounted
      rw [Finset.card_erase_of_mem hmem]
      omega
    · rename_i hne
      rw [ht.counts pool' i hne, h.counts pool' i hi]
  · rw [hs.groupCount] at hi
    rw [hs.perGroup] at hlo
    rw [hs.blockSize] at hhi
    rw [ht.bits pool' i c hi hhi, h.padding pool' i c hi hlo hhi, Bool.true_or]

theorem Ledger.counted (h : Ledger fs ts fs') (hc : FreeCounted fs) : FreeCounted fs' := by
  induction h with
  | refl => exact hc
  | kept hk _ ih => exact ih (hc.kept hk)
  | taken ht _ ih => exact ih (hc.taken ht)

theorem Ledger.bits (h : Ledger fs ts fs') (hi : i < fs.groupCount) (hb : b < 8 * fs.blockSize) :
    fs'.bit pool i b = true ↔ fs.bit pool i b = true ∨ (pool, i, b) ∈ ts := by
  induction h with
  | refl => simp
  | kept hk _ ih =>
    rw [ih (by rwa [hk.shape.groupCount]) (by rwa [hk.shape.blockSize]), hk.bit pool hi]
  | taken ht _ ih =>
    rw [ih (by rwa [ht.shape.groupCount]) (by rwa [ht.shape.blockSize]), ht.bits pool i b hi hb]
    simp only [Bool.or_eq_true, decide_eq_true_eq, mem_cons, Prod.mk.injEq]
    tauto

theorem Ledger.nodup (h : Ledger fs ts fs') : ts.Nodup := by
  induction h with
  | refl => exact nodup_nil
  | kept _ _ ih => exact ih
  | taken ht hrest ih =>
    refine nodup_cons.mpr ⟨fun hmem => ?_, ih⟩
    -- the bit is set from here on
    obtain ⟨-, -, hclear⟩ := hrest.fresh _ hmem
    rw [ht.bits _ _ _ ht.group ht.inBitmap] at hclear
    simp at hclear

/-! ## The calls -/

/-- A call of one of the two functions that allocate. -/
inductive AllocCall where
  | allocateBlock (inode : Mem) (ino block : Nat)
  | allocateAndCreateInode (parentInode : Mem) (pino : Nat) (name : Str) (attr : Nat)

/-- The inode of a directory of fewer than 12 blocks, none of which holds a bitmap or the descriptors. -/
def SmallDir (fs : Ext2) (inode : Mem) : Prop :=
  ∃ n < ndirBlocks, iSize inode = fs.blockSize * n ∧ iSectors inode = fs.sectorsPerBlock * n ∧
    ∀ j < n, OffBitmaps fs (fs.physical (iBlock inode j))

/-- What a call is given. -/
def AllocCall.Legal (fs : Ext2) : AllocCall → Prop
  | allocateBlock _ _ _ => True
  | allocateAndCreateInode parentInode _ _ _ => SmallDir fs parentInode

/-- The call succeeds and hands out these blocks and inodes: the one that the search has found, and for a directory that has got one block
more this block. -/
def AllocCall.Succeeds (fs : Ext2) (handed : List (Pool × Nat)) (fs' : Ext2) : AllocCall → Prop
  | allocateBlock inode ino block => ∃ inode', fs.allocateBlock inode ino block = (true, inode', fs') ∧
      handed = [(.blocks, (fs.allocateBit .blocks fs.groupCount 0).1)]
  | allocateAndCreateInode parentInode pino name attr => ∃ newInode newIno parentInode',
      fs.allocateAndCreateInode parentInode pino name attr = .ok (some (newInode, newIno), parentInode', fs') ∧
      handed = (.inodes, newIno) :: if iSize parentInode' = iSize parentInode then []
        else [(.blocks, iBlock parentInode' (iSize parentInode / fs.blockSize))]

/-- Calls that succeed one after another, and what they hand out. -/
inductive AllocRun : Ext2 → List AllocCall → List (Pool × Nat) → Ext2 → Prop where
  | nil (fs : Ext2) : AllocRun fs [] [] fs
  | cons {fs fs1 fs' : Ext2} {call : AllocCall} {calls : List AllocCall} {handed rest : List (Pool × Nat)} :
    call.Succeeds fs handed fs1 → AllocRun fs1 calls rest fs' → AllocRun fs (call :: calls) (handed ++ rest) fs'

/-! ## What the calls take -/

/-- The number of a bit, and what it is a number of. -/
def Ext2.numberOf (fs : Ext2) (t : Pool × Nat × Nat) : Pool × Nat := (t.1, fs.bitNumber t.1 t.2.1 t.2.2 % 2 ^ 32)

theorem SameShape.numberOf (hs : SameShape fs fs') : fs'.numberOf = fs.numberOf := by
  funext t
  rw [Ext2.numberOf, hs.bitNumber]
  rfl

theorem SmallDir.congr {inode : Mem} (h : SmallDir fs inode) (hs : SameShape fs fs') : SmallDir fs' inode := by
  simpa only [SmallDir, hs.blockSize, hs.sectorsPerBlock, hs.offBitmaps, hs.physical] using h

theorem AllocCall.Legal.congr (h : call.Legal fs) (hs : SameShape fs fs') : call.Legal fs' := by
  cases call with
  | allocateBlock => trivial
  | allocateAndCreateInode parentInode pino name attr => exact SmallDir.congr h hs

section

variable {inode : Mem} (h : SmallDir fs inode) (hbs : fs.blockSize = 1024)

include h hbs

theorem SmallDir.dirBlocks : DirBlocks fs inode := by
  obtain ⟨n, hn, hsize, -, hblocks⟩ := h
  intro j hj hcase fs'' _
  rw [hsize, hbs, Nat.mul_div_cancel_left _ (by decide)] at hj hcase
  rw [getRealBlock_direct fs'' inode (by omega)]
  exact hblocks j (by omega)

theorem SmallDir.sectorsMatch : SectorsMatch fs inode := by
  obtain ⟨n, hn, hsize, hsectors, -⟩ := h
  have hspb : fs.sectorsPerBlock = 2 := by rw [sectorsPerBlock, hbs]; rfl
  unfold ndirBlocks at hn
  rw [SectorsMatch, hsize, hsectors, hspb, sector2Block, sector2Block, ataSectorSize, hbs]
  omega

theorem SmallDir.oneBlock {inode' : Mem} (hone : OneBlock fs inode (iSize inode / fs.blockSize) ts inode') :
    iSize inode' ≠ iSize inode ∧ ts.map fs.numberOf = [(.blocks, iBlock inode' (iSize inode / fs.blockSize))] := by
  obtain ⟨n, hn, hsize, -, -⟩ := h
  obtain ⟨j, b, rfl, rfl⟩ := hone
  rw [iSize_grownInode, iBlock_grownInode fs inode (Nat.mod_lt _ (by decide)), hsize, hbs, Nat.mul_div_cancel_left _ (by decide),
    if_pos ⟨hn, rfl⟩]
  exact ⟨by omega, rfl⟩

end

theorem AllocCall.Succeeds.ledger (h : call.Succeeds fs handed fs') (hg : Guarded fs)
    (hbs : fs.blockSize = 1024) (hlegal : call.Legal fs) : ∃ ts, Ledger fs ts fs' ∧ handed = ts.map fs.numberOf := by
  cases call with
  | allocateBlock inode ino block =>
    obtain ⟨inode', hr, rfl⟩ := h
    obtain ⟨ts, hts, hone⟩ := hg.allocateBlock hr
    obtain ⟨⟨j, b, rfl, -⟩, hnumber⟩ := hone rfl
    refine ⟨_, hts.ledger, ?_⟩
    rw [hnumber _ mem_cons_self]
    rfl
  | allocateAndCreateInode parentInode pino name attr =>
    obtain ⟨newInode, newIno, parentInode', hr, rfl⟩ := h
    replace hlegal : SmallDir fs parentInode := hlegal
    obtain ⟨ts, hts, hsome⟩ := hg.allocateAndCreateInode (hlegal.dirBlocks hbs) hr
    obtain ⟨j, b, us, rfl, rfl, hus⟩ := hsome _ _ rfl (hlegal.sectorsMatch hbs)
    refine ⟨_, hts, ?_⟩
    rw [map_cons]
    refine congrArg (_ :: ·) ?_
    rcases hus with ⟨rfl, rfl⟩ | hone
    · rw [if_pos rfl]
      rfl
    · obtain ⟨hne, hmap⟩ := hlegal.oneBlock hbs hone
      rw [if_neg hne, hmap]

theorem AllocRun.ledger (h : AllocRun fs calls handed fs') (hg : Guarded fs)
    (hbs : fs.blockSize = 1024) (hlegal : ∀ call ∈ calls, call.Legal fs) : ∃ ts, Ledger fs ts fs' ∧ handed = ts.map fs.numberOf := by
  induction h with
  | nil fs => exact ⟨[], .refl fs, rfl⟩
  | cons hcall _ ih =>
    obtain ⟨ts, hts, rfl⟩ := hcall.ledger hg hbs (hlegal _ mem_cons_self)
    have hs := hts.shape
    obtain ⟨us, hus, rfl⟩ := ih (hts.guarded hg) (by rwa [hs.blockSize]) fun call hmem => (hlegal call (.tail _ hmem)).congr hs
    exact ⟨ts ++ us, hts.trans hus, by rw [map_append, hs.numberOf]⟩

/-! ## The accounts of a run -/

/-- The numbers of the groups fit 32 bits. -/
def NumbersFit (fs : Ext2) : Prop := ∀ pool, fs.perGroup pool * fs.groupCount < 2 ^ 32

theorem FreeCounted.lt_perGroup (hc : FreeCounted fs) (hi : i < fs.groupCount) (hb : b < 8 * fs.blockSize)
    (hclear : fs.bit pool i b = false) : b < fs.perGroup pool := by
  refine not_le.mp fun hle => ?_
  simp [hc.padding pool i b hi hle hb] at hclear

theorem NumbersFit.numberOf (h : NumbersFit fs) (hi : i < fs.groupCount) (hb : b < fs.perGroup pool) :
    fs.numberOf (pool, i, b) = (pool, fs.bitNumber pool i b) := by
  have hmul := Nat.mul_le_mul_left (fs.perGroup pool) (show i + 1 ≤ fs.groupCount from hi)
  have := h pool
  rw [Nat.mul_add] at hmul
  refine congrArg (Prod.mk pool) (Nat.mod_eq_of_lt ?_)
  show b + fs.perGroup pool * i + 1 < 2 ^ 32
  omega

section

variable (h : Ledger fs ts fs') (hc : FreeCounted fs) (hfit : NumbersFit fs)

include h hc hfit

/-- The bits that are taken stand for numbers of their groups. -/
theorem Ledger.number (ht : t ∈ ts) : t.2.1 < fs.groupCount ∧ t.2.2 < fs.perGroup t.1 ∧ fs.bit t.1 t.2.1 t.2.2 = false ∧
      fs.numberOf t = (t.1, fs.bitNumber t.1 t.2.1 t.2.2) := by
  obtain ⟨hi, hb, hclear⟩ := h.fresh t ht
  have hlt := hc.lt_perGroup hi hb hclear
  exact ⟨hi, hlt, hclear, hfit.numberOf hi hlt⟩

/-- A number is one of those of the bits that are taken when its bit is. -/
theorem Ledger.mem_numbers (hb : b < fs.perGroup pool) : (pool, fs.bitNumber pool i b) ∈ ts.map fs.numberOf ↔ (pool, i, b) ∈ ts := by
  constructor
  · intro hmem
    obtain ⟨⟨pool', j, c⟩, ht, heq⟩ := mem_map.mp hmem
    obtain ⟨-, hc', -, hnumber⟩ := h.number hc hfit ht
    rw [hnumber] at heq
    obtain ⟨rfl, heq⟩ := Prod.mk.inj heq
    obtain ⟨rfl, rfl⟩ := bitNumber_injective hc' hb heq
    exact ht
  · intro hmem
    obtain ⟨-, -, -, hnumber⟩ := h.number hc hfit hmem
    exact mem_map.mpr ⟨_, hmem, hnumber⟩

theorem Ledger.numbers_nodup : (ts.map fs.numberOf).Nodup := by
  refine List.Nodup.map_on (fun t ht u hu heq => ?_) h.nodup
  obtain ⟨-, hb, -, hnumber⟩ := h.number hc hfit ht
  obtain ⟨-, hb', -, hnumber'⟩ := h.number hc hfit hu
  rw [hnumber, hnumber'] at heq
  obtain ⟨hpool, heq⟩ := Prod.mk.inj heq
  obtain ⟨pool, i, b⟩ := t
  obtain ⟨pool', j, c⟩ := u
  obtain rfl : pool = pool' := hpool
  obtain ⟨rfl, rfl⟩ := bitNumber_injective hb hb' heq
  rfl

end

/-- What a run does to the accounts: the counters still tell the clear bits, the bits that are set are those that were set and one more for
each number that was handed out, and these numbers are all different and were free. -/
structure Accounted (fs fs' : Ext2) (handed : List (Pool × Nat)) : Prop where
  counted : FreeCounted fs'
  bits : ∀ pool i b, i < fs.groupCount → b < fs.perGroup pool →
    (fs'.bit pool i b = true ↔ fs.bit pool i b = true ∨ (pool, fs.bitNumber pool i b) ∈ handed)
  distinct : handed.Nodup
  free : ∀ pool n, (pool, n) ∈ handed →
    ∃ i b, i < fs.groupCount ∧ b < fs.perGroup pool ∧ n = fs.bitNumber pool i b ∧ fs.bit pool i b = false

/-- Runs of calls that succeed keep the accounts. -/
theorem allocRun_accounted {calls : List AllocCall} {handed : List (Pool × Nat)} (hg : Guarded fs) (hbs : fs.blockSize = 1024)
    (hsize : ∀ pool, fs.perGroup pool ≤ 8 * fs.blockSize) (hfit : NumbersFit fs) (hc : FreeCounted fs)
    (hlegal : ∀ call ∈ calls, call.Legal fs) (hrun : AllocRun fs calls handed fs') : Accounted fs fs' handed := by
  obtain ⟨ts, hts, rfl⟩ := hrun.ledger hg hbs hlegal
  refine ⟨hts.counted hc, fun pool i b hi hb => ?_, hts.numbers_nodup hc hfit, fun pool n hmem => ?_⟩
  · rw [hts.bits hi (lt_of_lt_of_le hb (hsize pool)), hts.mem_numbers hc hfit hb]
  · obtain ⟨⟨pool', i, b⟩, ht, heq⟩ := List.mem_map.mp hmem
    obtain ⟨hi, hb, hclear, hnumber⟩ := hts.number hc hfit ht
    rw [hnumber] at heq
    cases heq
    exact ⟨i, b, hi, hb, rfl, hclear⟩

/-- Two allocations in the small filesystem: a block for the file `a`, and an inode for a new file `b`. -/
def smallCalls : List AllocCall :=
  [.allocateBlock (smallFs.storedInode 3) 3 1, .allocateAndCreateInode (smallFs.storedInode 2) 2 [0x62] iFile]

/-- Counters that are right for the bits that stand for something. -/
theorem Consistent.freeCounted (hc : Consistent fs)
    (hcounts : ∀ pool i, i < fs.groupCount → fs.freeCount pool i = ((Finset.range (fs.perGroup pool)).filter fun b => fs.bit pool i b = false).card) :
    FreeCounted fs := by
  have hpadding : ∀ pool i b, i < fs.groupCount → fs.perGroup pool ≤ b → b < 8 * fs.blockSize → fs.bit pool i b = true := by
    intro pool i b hi hlo hhi
    cases hbit : fs.bit pool i b with
    | true => rfl
    | false =>
      cases pool with
      | blocks => exact absurd (hc.freeBlocks i b hi hhi hbit).1 (not_lt.mpr hlo)
      | inodes =>
        rw [perGroup, hc.geometry.sameInodes] at hlo
        exact absurd (hc.freeInodes i b hi hhi hbit) (not_lt.mpr hlo)
  have hle : ∀ pool, fs.perGroup pool ≤ 8 * fs.blockSize := by
    intro pool
    cases pool with
    | blocks => exact hc.geometry.blocksPerGroup.2
    | inodes =>
      rw [perGroup, hc.geometry.sameInodes]
      exact hc.geometry.inodesPerGroup.2
  refine ⟨fun pool i hi => ?_, hpadding⟩
  rw [hcounts pool i hi]
  congr 1
  ext b
  simp only [clearBits, Finset.mem_filter, Finset.mem_range]
  have hpool := hle pool
  refine ⟨fun h => ⟨by omega, h.2⟩, fun h => ⟨not_le.mp fun hge => ?_, h.2⟩⟩
  rw [hpadding pool i b hi hge h.1] at h
  cases h.2

theorem smallFs_counted : FreeCounted smallFs := by
  refine smallFs_consistent.freeCounted fun pool i hi => ?_
  obtain rfl : i = 0 := Nat.lt_one_iff.mp hi
  cases pool <;> decide

theorem smallCalls_legal : ∀ call ∈ smallCalls, call.Legal smallFs := by
  have hblock : iBlock (smallFs.storedInode 2) 0 = 6 := by decide
  intro call hmem
  rcases mem_cons.mp hmem with rfl | hmem
  · trivial
  · rw [mem_singleton.mp hmem]
    refine ⟨1, by decide, by decide, by decide, fun j hj => ?_⟩
    obtain rfl : j = 0 := by omega
    rw [hblock]
    refine ⟨by decide, fun pool i hi => ?_⟩
    obtain rfl : i = 0 := Nat.lt_one_iff.mp hi
    cases pool <;> decide

theorem exists_of_fst (h : r.1 = true) : ∃ inode fs', r = (true, inode, fs') := ⟨r.2.1, r.2.2, Prod.ext h rfl⟩

/-- They hand out block 8 and inode 4. -/
theorem allocRun_accounted_small : ∃ fs', AllocRun smallFs smallCalls [(.blocks, 8), (.inodes, 4)] fs' ∧
    Accounted smallFs fs' [(.blocks, 8), (.inodes, 4)] := by
  have hdone : (smallFs.allocateBlock (smallFs.storedInode 3) 3 1).1 = true := by decide
  have hsome : ((smallFs.allocateBlock (smallFs.storedInode 3) 3 1).2.2.allocateAndCreateInode (smallFs.storedInode 2) 2 [0x62] iFile).map
      (fun r => (r.1.map (·.2), iSize r.2.1)) = .ok (some 4, 1024) := by decide
  obtain ⟨inode, fs1, hr1⟩ := exists_of_fst hdone
  rw [hr1] at hsome
  obtain ⟨⟨created, parentInode, fs2⟩, hr, hvalues⟩ := map_eq_ok hsome
  obtain ⟨hcreated, hsize⟩ := Prod.mk.inj hvalues
  obtain ⟨⟨newInode, newIno⟩, rfl, rfl⟩ := Option.map_eq_some_iff.mp hcreated
  have hrun : AllocRun smallFs smallCalls ([(.blocks, 8)] ++ ([(.inodes, 4)] ++ [])) fs2 := by
    refine .cons ⟨inode, hr1, by decide⟩ (.cons ⟨newInode, 4, parentInode, hr, ?_⟩ (.nil fs2))
    rw [if_pos (hsize.trans (by decide))]
  exact ⟨fs2, hrun, allocRun_accounted (guarded_of_geometry smallFs_geometry smallFs_consistent.freeBlocks) rfl
    (fun pool => by cases pool <;> decide) (fun pool => by cases pool <;> decide) smallFs_counted smallCalls_legal hrun⟩

end OmegaOS
