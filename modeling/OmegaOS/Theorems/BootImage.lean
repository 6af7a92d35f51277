import Mathlib.Data.List.Basic
import OmegaOS.BootLoader

/-!
# The image that the boot loader builds

The loader reads the bytes of each segment from the file and leaves what the pages hold behind them, and it asks for as many pages as the
size of a segment has, wherever in a page the segment begins. So the image is right exactly when no segment has more bytes in memory than
in the file and the pages of each segment have been given when it is read.
-/

namespace OmegaOS

open Splice List

variable {free allocated : Nat → Bool} {service : AllocatePages free} {file : Bytes} {st st' : Loader} {phdr : Phdr} {a i n p fuel : Nat}

/-- The `i`th program header. -/
def header (file : Bytes) (i : Nat) : Phdr := phdrAt file (i * ePhentsize file)

/-- The address is in the segment. -/
def Phdr.Occupies (h : Phdr) (a : Nat) : Prop := h.type = ptLoad ∧ h.paddr ≤ a ∧ a < h.paddr + h.memsz

/-- A kernel that `validateElfHeader` accepts, with program headers of at least 56 bytes, no segment smaller than its bytes in the file,
and segments that do not meet. -/
structure ElfKernel (file : Bytes) : Prop where
  accepted : validateElfHeader file = true
  entries : 56 ≤ ePhentsize file
  sizes : ∀ i < ePhnum file, (header file i).type = ptLoad → (header file i).filesz ≤ (header file i).memsz
  disjoint : ∀ i < ePhnum file, ∀ j < ePhnum file, i ≠ j → ∀ a, ¬ ((header file i).Occupies a ∧ (header file j).Occupies a)

/-- Each byte of each segment is what the file says, or zero behind the bytes of the file, and is in a page that was given. -/
def Image (file : Bytes) (st : Loader) : Prop :=
  ∀ i < ePhnum file, (header file i).type = ptLoad → ∀ k < (header file i).memsz,
    st.memory ((header file i).paddr + k) = (if k < (header file i).filesz then file ((header file i).offset + k) else 0) ∧
      st.allocated (((header file i).paddr + k) / pageSize) = true

/-- Whatever the memory holds and whichever function with these free pages the firmware has, the loader builds the image. -/
def LoadsImage (free : Nat → Bool) (file : Bytes) : Prop :=
  ∀ (service : AllocatePages free) (memory : Bytes),
    ∃ fuel st, loadKernel service file fuel ⟨memory, fun _ => false⟩ = .ok (some st) ∧ Image file st

/-! ## One header -/

/-- The pages that have been given after a header. -/
def grant (free allocated : Nat → Bool) (phdr : Phdr) (p : Nat) : Bool :=
  decide (phdr.type = ptLoad ∧ pagesFree free allocated phdr.paddr (segmentPages phdr.memsz) ∧ Asked phdr.paddr (segmentPages phdr.memsz) p) ||
    allocated p

/-- The file is read to the address. -/
def Phdr.Reads (phdr : Phdr) (a : Nat) : Prop := phdr.type = ptLoad ∧ phdr.paddr ≤ a ∧ a < phdr.paddr + phdr.filesz

theorem loadSegment_allocated (service : AllocatePages free) (file : Bytes) (st : Loader) (phdr : Phdr) :
    (loadSegment service file st phdr).allocated = grant free st.allocated phdr := by
  funext p
  rw [loadSegment]
  by_cases htype : phdr.type = ptLoad
  · rw [if_pos htype, Bool.eq_iff_iff]
    refine (service.allocated st phdr.paddr (segmentPages phdr.memsz) p).trans ?_
    simp [grant, htype]
  · simp [grant, htype]

theorem grant_mono (hp : allocated p = true) (phdr : Phdr) : grant free allocated phdr p = true := by
  rw [grant, hp, Bool.or_true]

theorem loadSegment_reads (hreads : phdr.Reads a) : (loadSegment service file st phdr).memory a = file (phdr.offset + (a - phdr.paddr)) := by
  rw [loadSegment, if_pos hreads.1]
  dsimp only
  rw [service.address, splice_inside _ _ hreads.2.1 hreads.2.2]

/-- Elsewhere the memory is what the call leaves. -/
theorem loadSegment_elsewhere (hreads : ¬ phdr.Reads a) : (loadSegment service file st phdr).memory a =
    if phdr.type = ptLoad then (service.call st phdr.paddr (segmentPages phdr.memsz)).1.memory a else st.memory a := by
  rw [loadSegment]
  by_cases htype : phdr.type = ptLoad
  · have houtside : a < phdr.paddr ∨ phdr.paddr + phdr.filesz ≤ a := by
      by_contra hin
      exact hreads ⟨htype, by omega, by omega⟩
    rw [if_pos htype, if_pos htype]
    dsimp only
    rw [service.address, splice_outside _ _ houtside]
  · rw [if_neg htype, if_neg htype]

/-- What lies in a page that has been given stays as long as nothing is read over it. -/
theorem loadSegment_kept (hreads : ¬ phdr.Reads a) (hpage : st.allocated (a / pageSize) = true) :
    (loadSegment service file st phdr).memory a = st.memory a := by
  rw [loadSegment_elsewhere hreads]
  split
  · exact service.memory _ _ _ _ (((service.allocated _ _ _ _).mpr (.inr hpage)).trans hpage.symm)
  · rfl

/-! ## Firmware that fills new pages -/

/-- The new pages hold `v`. -/
def filledPages (free : Nat → Bool) (v : UInt8) : AllocatePages free where
  call st address pages :=
    (if pagesFree free st.allocated address pages then
      { memory := fun a => if Asked address pages (a / pageSize) ∧ st.allocated (a / pageSize) = false then v else st.memory a,
        allocated := fun p => decide (Asked address pages p) || st.allocated p }
    else st, address)
  address _ _ _ := rfl
  allocated st address pages p := by
    by_cases hfree : pagesFree free st.allocated address pages <;> simp [hfree]
  memory st address pages a hsame := by
    by_cases hfree : pagesFree free st.allocated address pages
    · simp only [if_pos hfree] at hsame ⊢
      refine if_neg fun hnew => ?_
      simp [hnew] at hsame
    · simp [hfree]

/-- Where nothing is read, a page that is given now holds `v`, and the others what they held. -/
theorem loadSegment_filled (hreads : ¬ phdr.Reads a) : (loadSegment (filledPages free v) file st phdr).memory a =
    if st.allocated (a / pageSize) = false ∧ grant free st.allocated phdr (a / pageSize) = true then v else st.memory a := by
  rw [loadSegment_elsewhere hreads, grant]
  by_cases htype : phdr.type = ptLoad
  · by_cases hfree : pagesFree free st.allocated phdr.paddr (segmentPages phdr.memsz)
    · by_cases hpage : st.allocated (a / pageSize) = false <;> simp [htype, filledPages, hfree, hpage]
    · by_cases hpage : st.allocated (a / pageSize) = false <;> simp [htype, filledPages, hfree, hpage]
  · by_cases hpage : st.allocated (a / pageSize) = false <;> simp [htype, hpage]

/-! ## A list of headers -/

/-- The loop over headers. -/
def loadSegments (service : AllocatePages free) (file : Bytes) (st : Loader) (hs : List Phdr) : Loader := hs.foldl (loadSegment service file) st

variable {hs : List Phdr}

theorem loadSegments_concat (service : AllocatePages free) (file : Bytes) (st : Loader) (hs : List Phdr) (phdr : Phdr) :
    loadSegments service file st (hs ++ [phdr]) = loadSegment service file (loadSegments service file st hs) phdr := by
  rw [loadSegments, foldl_append]
  rfl

theorem loadSegments_allocated (service : AllocatePages free) (file : Bytes) (st : Loader) (hs : List Phdr) :
    (loadSegments service file st hs).allocated = hs.foldl (grant free) st.allocated := by
  induction hs generalizing st with
  | nil => rfl
  | cons x hs ih => exact (ih _).trans (by rw [loadSegment_allocated, foldl_cons])

theorem foldl_grant_mono (hp : allocated p = true) (hs : List Phdr) : hs.foldl (grant free) allocated p = true := by
  induction hs generalizing allocated with
  | nil => exact hp
  | cons x hs ih => exact ih (grant_mono hp x)

theorem loadSegments_kept (hpage : st.allocated (a / pageSize) = true) (hreads : ∀ x ∈ hs, ¬ x.Reads a) :
    (loadSegments service file st hs).memory a = st.memory a := by
  induction hs generalizing st with
  | nil => rfl
  | cons x hs ih =>
    obtain ⟨hfirst, hrest⟩ := forall_mem_cons.mp hreads
    exact (ih (by rw [loadSegment_allocated]; exact grant_mono hpage x) hrest).trans (loadSegment_kept hfirst hpage)

section

variable {v : UInt8}

/-- When all new pages hold `v`, a byte `v` stays as long as nothing is read over it. -/
theorem loadSegments_constant (hmemory : st.memory a = v) (hreads : ∀ x ∈ hs, ¬ x.Reads a) :
    (loadSegments (filledPages free v) file st hs).memory a = v := by
  induction hs generalizing st with
  | nil => exact hmemory
  | cons x hs ih =>
    obtain ⟨hfirst, hrest⟩ := forall_mem_cons.mp hreads
    refine ih ?_ hrest
    rw [loadSegment_filled hfirst, hmemory, ite_self]

/-- A byte of a page that is given later holds what the new pages hold. -/
theorem loadSegments_new (hbefore : st.allocated (a / pageSize) = false)
    (hafter : (loadSegments (filledPages free v) file st hs).allocated (a / pageSize) = true) (hreads : ∀ x ∈ hs, ¬ x.Reads a) :
    (loadSegments (filledPages free v) file st hs).memory a = v := by
  induction hs generalizing st with
  | nil => exact absurd (hbefore.symm.trans hafter) Bool.false_ne_true
  | cons x hs ih =>
    obtain ⟨hfirst, hrest⟩ := forall_mem_cons.mp hreads
    cases hpage : grant free st.allocated x (a / pageSize) with
    | false => exact ih (by rwa [loadSegment_allocated]) hafter hrest
    | true =>
      refine (loadSegments_kept (by rwa [loadSegment_allocated]) hrest).trans ?_
      rw [loadSegment_filled hfirst, if_pos ⟨hbefore, hpage⟩]

end

/-! ## The loop -/

theorem headersSize_of_lt (hsize : ePhnum file * ePhentsize file < 2 ^ 31) : headersSize file = (ePhnum file * ePhentsize file : Nat) := by
  rw [headersSize, BitVec.toInt_eq_toNat_cond, BitVec.toNat_ofNat, Nat.mod_eq_of_lt (by omega), if_pos (by omega)]

/-- A product that does not fit an `int` is negative. -/
theorem headersSize_neg (hsize : ¬ ePhnum file * ePhentsize file < 2 ^ 31) : headersSize file < 0 := by
  have hnum : ePhnum file < 2 ^ 16 := file.read16_lt 56
  have hentry := file.read16_lt 54
  have hproduct : ePhnum file * ePhentsize file < 2 ^ 32 := by
    calc ePhnum file * ePhentsize file ≤ 2 ^ 16 * ePhentsize file := Nat.mul_le_mul_right _ (Nat.le_of_lt hnum)
      _ < 2 ^ 16 * 2 ^ 16 := Nat.mul_lt_mul_of_pos_left hentry (by decide)
  rw [headersSize, BitVec.toInt_eq_toNat_cond, BitVec.toNat_ofNat, Nat.mod_eq_of_lt hproduct, if_neg (by omega)]
  omega

/-- The headers from `i` on, `k` of them. -/
def headersFrom (file : Bytes) (i k : Nat) : List Phdr := (List.range' i k).map (header file)

theorem loadLoop_eq (hentries : 0 < ePhentsize file) (hsize : ePhnum file * ePhentsize file < 2 ^ 31) (hi : i + k = ePhnum file)
    (hfuel : k < fuel) (st : Loader) :
    loadLoop service file fuel (i * ePhentsize file) st = .ok (loadSegments service file st (headersFrom file i k)) := by
  induction k generalizing i fuel st with
  | zero =>
    obtain ⟨fuel, rfl⟩ := Nat.exists_eq_add_of_le' hfuel
    obtain rfl : i = ePhnum file := hi
    rw [loadLoop, if_neg]
    · rfl
    · rw [headersSize_of_lt hsize]
      omega
  | succ k ih =>
    obtain ⟨fuel, rfl⟩ := Nat.exists_eq_add_of_le' (Nat.le_trans (Nat.succ_pos _) hfuel)
    have hlt : i * ePhentsize file < ePhnum file * ePhentsize file := Nat.mul_lt_mul_of_pos_right (by omega) hentries
    have hnext : i * ePhentsize file + ePhentsize file = (i + 1) * ePhentsize file := (Nat.succ_mul i _).symm
    rw [loadLoop, if_pos (by rw [headersSize_of_lt hsize]; omega), hnext, ih (by omega) (by omega)]
    rfl

/-- The headers that the loop goes through: all of them, or none when their size does not fit an `int`. -/
def processed (file : Bytes) : Nat := if ePhnum file * ePhentsize file < 2 ^ 31 then ePhnum file else 0

theorem loadLoop_processed (h : ElfKernel file) (service : AllocatePages free) (st : Loader) :
    ∃ fuel, loadLoop service file fuel 0 st = .ok (loadSegments service file st (headersFrom file 0 (processed file))) := by
  have hentries : 0 < ePhentsize file := Nat.lt_of_lt_of_le (by decide) h.entries
  refine ⟨ePhnum file + 1, ?_⟩
  rw [processed]
  by_cases hsize : ePhnum file * ePhentsize file < 2 ^ 31
  · have hloop : loadLoop service file (ePhnum file + 1) (0 * ePhentsize file) st = _ :=
      loadLoop_eq hentries hsize (Nat.zero_add (ePhnum file)) (Nat.lt_succ_self _) st
    rw [Nat.zero_mul] at hloop
    rw [if_pos hsize, hloop]
  · have hstop : ¬ ((0 : Nat) : Int) < headersSize file := by
      have := headersSize_neg hsize
      omega
    rw [if_neg hsize, loadLoop, if_neg hstop]
    rfl

/-! ## The image -/

/-- The pages that have been given after the first `n` headers. -/
def granted (free : Nat → Bool) (file : Bytes) (n : Nat) : Nat → Bool :=
  ((List.range (min n (processed file))).map (header file)).foldl (grant free) fun _ => false

/-- The pages of a segment have been given when it is read. -/
def SegmentGranted (free : Nat → Bool) (file : Bytes) (i : Nat) : Prop :=
  ∀ a, (header file i).Occupies a → granted free file (i + 1) (a / pageSize) = true

theorem ElfKernel.occupies_of_reads (h : ElfKernel file) (hi : i < ePhnum file) (hreads : (header file i).Reads a) : (header file i).Occupies a :=
  ⟨hreads.1, hreads.2.1, Nat.lt_of_lt_of_le hreads.2.2 (Nat.add_le_add_left (h.sizes i hi hreads.1) _)⟩

theorem granted_eq (hn : n ≤ processed file) (service : AllocatePages free) (memory : Bytes) :
    (loadSegments service file ⟨memory, fun _ => false⟩ (headersFrom file 0 n)).allocated = granted free file n := by
  rw [loadSegments_allocated, granted, Nat.min_eq_left hn, headersFrom, range_eq_range']

/-- The loop is in two parts: up to a header, and behind it. -/
theorem headersFrom_split (file : Bytes) (hi : i < n) :
    headersFrom file 0 n = headersFrom file 0 (i + 1) ++ headersFrom file (i + 1) (n - (i + 1)) := by
  have hrange := range'_append_1 (s := 0) (m := i + 1) (n := n - (i + 1))
  rw [zero_add, Nat.add_sub_cancel' hi] at hrange
  rw [headersFrom, ← hrange, map_append]
  rfl

theorem headersFrom_last (file : Bytes) (i : Nat) : headersFrom file 0 (i + 1) = headersFrom file 0 i ++ [header file i] := by
  rw [headersFrom, range'_1_concat, map_append, zero_add]
  rfl

theorem mem_headersFrom (hx : phdr ∈ headersFrom file i k) : ∃ j, i ≤ j ∧ j < i + k ∧ phdr = header file j := by
  obtain ⟨j, hj, rfl⟩ := mem_map.mp hx
  obtain ⟨hlo, hhi⟩ := mem_range'_1.mp hj
  exact ⟨j, hlo, hhi, rfl⟩

theorem processed_cases (file : Bytes) : processed file = ePhnum file ∨ processed file = 0 := by
  rw [processed]
  split
  · exact .inl rfl
  · exact .inr rfl

theorem granted_none (hnone : processed file = 0) (n p : Nat) : granted free file n p = false := by
  rw [granted, hnone, Nat.min_zero]
  rfl

/-- The state after the loop. -/
def loaded (service : AllocatePages free) (file memory : Bytes) : Loader :=
  loadSegments service file ⟨memory, fun _ => false⟩ (headersFrom file 0 (processed file))

/-- Up to a header that is processed, then the rest. -/
theorem loaded_split (hi : i < processed file) (service : AllocatePages free) (memory : Bytes) :
    loaded service file memory = loadSegments service file (loadSegments service file ⟨memory, fun _ => false⟩ (headersFrom file 0 (i + 1)))
      (headersFrom file (i + 1) (processed file - (i + 1))) := by
  rw [loaded, headersFrom_split file hi, loadSegments, foldl_append]
  rfl

namespace ElfKernel

variable (h : ElfKernel file)

include h

section

variable (hi : i < ePhnum file)

include hi

/-- No other header reads anything to the bytes of a segment. -/
theorem not_reads (ha : (header file i).Occupies a) (hj : j < ePhnum file) (hne : j ≠ i) : ¬ (header file j).Reads a := by
  intro hreads
  exact h.disjoint i hi j hj hne.symm a ⟨ha, h.occupies_of_reads hj hreads⟩

theorem rest_not_reads (ha : (header file i).Occupies a) : ∀ x ∈ headersFrom file (i + 1) (processed file - (i + 1)), ¬ x.Reads a := by
  intro x hx
  obtain ⟨j, hlo, hhi, rfl⟩ := mem_headersFrom hx
  rcases processed_cases file with hall | hnone
  · exact h.not_reads hi ha (by omega) (by omega)
  · omega

/-- The byte behind those of the file is not written. -/
theorem behind_constant (htype : (header file i).type = ptLoad) (hmore : (header file i).filesz < (header file i).memsz) (v : UInt8) :
    (loaded (filledPages free v) file fun _ => v).memory ((header file i).paddr + (header file i).filesz) = v := by
  refine loadSegments_constant rfl fun x hx => ?_
  obtain ⟨j, -, hj, rfl⟩ := mem_headersFrom hx
  by_cases hne : j = i
  · subst hne
    rintro ⟨-, -, hlt⟩
    exact Nat.lt_irrefl _ hlt
  · have hj' : j < ePhnum file := by
      rcases processed_cases file with hall | hnone <;> omega
    exact h.not_reads hi ⟨htype, Nat.le_add_right _ _, Nat.add_lt_add_left hmore _⟩ hj' hne

/-- A byte of a page that is given too late holds what the page held. -/
theorem late_constant (ha : (header file i).Occupies a) (hlate : granted free file (i + 1) (a / pageSize) = false) (v : UInt8)
    (hpage : (loaded (filledPages free v) file fun _ => v).allocated (a / pageSize) = true) :
    (loaded (filledPages free v) file fun _ => v).memory a = v := by
  rcases processed_cases file with hall | hnone
  · have hsplit := loaded_split (hall ▸ hi : i < processed file) (filledPages free v) fun _ => v
    rw [hsplit] at hpage ⊢
    exact loadSegments_new (by rwa [granted_eq (by omega)]) hpage (h.rest_not_reads hi ha)
  · simp [loaded, granted_eq .refl, granted_none hnone] at hpage

/-- A byte of a segment whose page has been given in time is the file's. -/
theorem loaded_byte (ha : (header file i).Occupies a) (hgranted : granted free file (i + 1) (a / pageSize) = true)
    (hreads : (header file i).Reads a) (service : AllocatePages free) (memory : Bytes) :
    (loaded service file memory).memory a = file ((header file i).offset + (a - (header file i).paddr)) ∧
      (loaded service file memory).allocated (a / pageSize) = true := by
  rcases processed_cases file with hall | hnone
  · have hpage : (loadSegments service file ⟨memory, fun _ => false⟩ (headersFrom file 0 (i + 1))).allocated (a / pageSize) = true := by
      rwa [granted_eq (by omega)]
    rw [loaded_split (hall ▸ hi)]
    constructor
    · rw [loadSegments_kept hpage (h.rest_not_reads hi ha), headersFrom_last, loadSegments_concat, loadSegment_reads hreads]
    · rw [loadSegments_allocated]
      exact foldl_grant_mono hpage _
  · simp [granted_none hnone] at hgranted

end

/-- The image is right, whatever the memory holds, exactly when each segment is all in the file and has its pages in time. -/
theorem image_iff (free : Nat → Bool) : (∀ (service : AllocatePages free) memory, Image file (loaded service file memory)) ↔
    ∀ i < ePhnum file, (header file i).type = ptLoad → (header file i).filesz = (header file i).memsz ∧ SegmentGranted free file i := by
  constructor
  · intro himage i hi htype
    constructor
    · refine Nat.le_antisymm (h.sizes i hi htype) (Nat.le_of_not_lt fun hmore => ?_)
      obtain ⟨hbyte, -⟩ := himage (filledPages free 1) (fun _ => 1) i hi htype _ hmore
      rw [if_neg (Nat.lt_irrefl _), h.behind_constant hi htype hmore] at hbyte
      cases hbyte
    · intro a ha
      by_contra hlate
      rw [Bool.not_eq_true] at hlate
      -- the byte would be both 0 and 1
      have hvalue : ∀ v : UInt8, v = if a - (header file i).paddr < (header file i).filesz
          then file ((header file i).offset + (a - (header file i).paddr)) else 0 := by
        intro v
        have hbyte := himage (filledPages free v) (fun _ => v) i hi htype (a - (header file i).paddr) (by have := ha.2; omega)
        rw [Nat.add_sub_cancel' ha.2.1] at hbyte
        exact (h.late_constant hi ha hlate v hbyte.2).symm.trans hbyte.1
      exact absurd ((hvalue 0).trans (hvalue 1).symm) (by decide)
  · intro hcond service memory i hi htype k hk
    obtain ⟨hsizes, hgranted⟩ := hcond i hi htype
    have ha : (header file i).Occupies ((header file i).paddr + k) := ⟨htype, Nat.le_add_right _ _, Nat.add_lt_add_left hk _⟩
    have hreads : (header file i).Reads ((header file i).paddr + k) := ⟨htype, ha.2.1, by rw [hsizes]; exact ha.2.2⟩
    have hbyte := h.loaded_byte hi ha (hgranted _ ha) hreads service memory
    rw [Nat.add_sub_cancel_left] at hbyte
    rwa [if_pos (by rwa [hsizes])]

end ElfKernel

/-! ## `efi_main` -/

theorem loadLoop_succ {phdr : Nat} (h : loadLoop service file fuel phdr st = .ok st') :
    loadLoop service file (fuel + 1) phdr st = .ok st' := by
  induction fuel generalizing phdr st with
  | zero => cases h
  | succ fuel ih =>
    rw [loadLoop] at h ⊢
    split at h
    · rename_i hlt
      rw [if_pos hlt]
      exact ih h
    · rename_i hge
      rwa [if_neg hge]

theorem loadLoop_unique {f g phdr : Nat} (hf : loadLoop service file f phdr st = .ok st')
    (hg : loadLoop service file g phdr st = .ok st'') : st' = st'' := by
  have hmore : ∀ k, loadLoop service file (f + k) phdr st = .ok st' ∧ loadLoop service file (g + k) phdr st = .ok st'' := by
    intro k
    induction k with
    | zero => exact ⟨hf, hg⟩
    | succ k ih => exact ⟨loadLoop_succ ih.1, loadLoop_succ ih.2⟩
  have hfg := (hmore g).1
  rw [add_comm, (hmore f).2] at hfg
  exact (Except.ok.inj hfg).symm

theorem ElfKernel.loadKernel_ok_iff (h : ElfKernel file) :
    loadKernel service file fuel st = .ok (some st') ↔ loadLoop service file fuel 0 st = .ok st' := by
  rw [loadKernel, h.accepted]
  cases loadLoop service file fuel 0 st with
  | error e => exact iff_of_false (fun hrun => nomatch hrun) fun hrun => nomatch hrun
  | ok r => exact ⟨fun hrun => by cases hrun; rfl, fun hrun => by cases hrun; rfl⟩

/-- The loop ends in the state that the headers lead to. -/
theorem ElfKernel.loadsImage_iff (h : ElfKernel file) (free : Nat → Bool) :
    LoadsImage free file ↔ ∀ (service : AllocatePages free) memory, Image file (loaded service file memory) := by
  refine forall_congr' fun service => forall_congr' fun memory => ?_
  obtain ⟨fuel, hrun⟩ := loadLoop_processed h service ⟨memory, fun _ => false⟩
  constructor
  · rintro ⟨fuel', st, hrun', himage⟩
    obtain rfl := loadLoop_unique hrun (h.loadKernel_ok_iff.mp hrun')
    exact himage
  · intro himage
    exact ⟨fuel, _, h.loadKernel_ok_iff.mpr hrun, himage⟩

/-- The boot loader builds the image of a kernel exactly when no segment has more bytes in memory than in the file, and the pages of each
segment have been given by its own request or an earlier one. -/
theorem boot_image_iff (h : ElfKernel file) (free : Nat → Bool) : LoadsImage free file ↔
    ∀ i < ePhnum file, (header file i).type = ptLoad → (header file i).filesz = (header file i).memsz ∧ SegmentGranted free file i :=
  (h.loadsImage_iff free).trans (h.image_iff free)

/-! ## Kernels with one segment -/

/-- A file with one program header, of a segment at `low + 256 * high`. -/
def oneSegment (low high filesz memsz : UInt8) : Bytes
  | 0 => 0x7F
  | 1 => 0x45
  | 2 => 0x4C
  | 3 => 0x46
  | 4 => 2
  | 5 => 1
  | 16 => 2
  | 18 => 62
  | 20 => 1
  | 32 => 64
  | 54 => 56
  | 56 => 1
  | 64 => 1
  | 72 => 120
  | 88 => low
  | 89 => high
  | 96 => filesz
  | 104 => memsz
  | _ => 0

section

variable (low high filesz memsz : UInt8)

theorem oneSegment_phnum : ePhnum (oneSegment low high filesz memsz) = 1 := by
  simp [ePhnum, Bytes.read16, oneSegment]

theorem oneSegment_phentsize : ePhentsize (oneSegment low high filesz memsz) = 56 := by
  simp [ePhentsize, Bytes.read16, oneSegment]

theorem oneSegment_header : header (oneSegment low high filesz memsz) 0 =
    ⟨1, 120, low.toNat + high.toNat * 2 ^ 8, filesz.toNat, memsz.toNat⟩ := by
  have hphoff : ePhoff (oneSegment low high filesz memsz) = 64 := by
    simp [ePhoff, Bytes.read64, Bytes.read32, oneSegment]
  rw [header, Nat.zero_mul, phdrAt, hphoff]
  simp [Bytes.read64, Bytes.read32, oneSegment]

theorem oneSegment_granted (free : Nat → Bool) : granted free (oneSegment low high filesz memsz) (0 + 1) =
    grant free (fun _ => false) ⟨1, 120, low.toNat + high.toNat * 2 ^ 8, filesz.toNat, memsz.toNat⟩ := by
  have hprocessed : processed (oneSegment low high filesz memsz) = 1 := by
    rw [processed, oneSegment_phnum, oneSegment_phentsize]
    rfl
  simp [granted, hprocessed, oneSegment_header]

theorem oneSegment_kernel (hsizes : filesz ≤ memsz) : ElfKernel (oneSegment low high filesz memsz) := by
  refine ⟨?_, ?_, fun i hi _ => ?_, fun i hi j hj hne => ?_⟩
  · simp [validateElfHeader, Bytes.read16, Bytes.read32, oneSegment]
  · exact Nat.le_of_eq (oneSegment_phentsize low high filesz memsz).symm
  · rw [oneSegment_phnum] at hi
    obtain rfl : i = 0 := by omega
    rwa [oneSegment_header]
  · rw [oneSegment_phnum] at hi hj
    omega

end

/-- Four bytes at the beginning of a page. -/
theorem boot_image_small : LoadsImage (fun _ => true) (oneSegment 0 0x10 4 4) := by
  refine (boot_image_iff (oneSegment_kernel 0 0x10 4 4 (by decide)) _).mpr fun i hi _ => ?_
  rw [oneSegment_phnum] at hi
  obtain rfl : i = 0 := by omega
  rw [SegmentGranted, oneSegment_header, oneSegment_granted]
  refine ⟨rfl, fun a ha => ?_⟩
  obtain ⟨-, hlo, hhi⟩ := ha
  have hlo : 0x1000 ≤ a := hlo
  have hhi : a < 0x1004 := hhi
  have hpage : a / pageSize = 1 := by
    rw [pageSize]
    omega
  rw [hpage]
  decide

/-- Whatever pages are free: four bytes of the file and four behind them, which are not cleared; and four bytes over the end of a page, which
begin in the middle of the only page that is asked for. -/
theorem boot_image_wrong : ElfKernel (oneSegment 0 0x10 4 8) ∧ (∀ free, ¬ LoadsImage free (oneSegment 0 0x10 4 8)) ∧
    ElfKernel (oneSegment 0xFE 0x1F 4 4) ∧ ∀ free, ¬ LoadsImage free (oneSegment 0xFE 0x1F 4 4) := by
  have hcleared := oneSegment_kernel 0 0x10 4 8 (by decide)
  have hpages := oneSegment_kernel 0xFE 0x1F 4 4 (by decide)
  refine ⟨hcleared, fun free h => ?_, hpages, fun free h => ?_⟩
  · obtain ⟨hsizes, -⟩ := (hcleared.image_iff free).mp ((hcleared.loadsImage_iff free).mp h) 0 (by rw [oneSegment_phnum]; decide)
      (by rw [oneSegment_header]; rfl)
    rw [oneSegment_header] at hsizes
    exact absurd hsizes (by decide)
  · obtain ⟨-, hgranted⟩ := (hpages.image_iff free).mp ((hpages.loadsImage_iff free).mp h) 0 (by rw [oneSegment_phnum]; decide)
      (by rw [oneSegment_header]; rfl)
    have hbyte := hgranted 0x2000 (by rw [oneSegment_header]; exact ⟨rfl, by decide, by decide⟩)
    rw [oneSegment_granted, grant] at hbyte
    simp only [Bool.or_false, decide_eq_true_eq] at hbyte
    exact absurd hbyte.2.1.1 (by decide)

end OmegaOS
