import OmegaOS.Lemmas.Pmm

/-!
# Ownership of physical frames

Who owns a frame, along any run of allocations and releases. The search for a run of clear frames passes over a completely
used word without forgetting the run it has, so the frames it counts need not be adjacent, and the frames it returns need not
be the ones it counted. They are exactly when no completely used word lies inside the first run.
-/

namespace OmegaOS

variable {addr count : Nat} {pm pm' : Pmm} {s : Owned}

/-- The manager, with the number of live allocations that each frame belongs to. -/
structure Owned where
  pm : Pmm
  owners : Nat → Nat

/-- The frames of a range. -/
def InRange (first count f : Nat) : Prop := first ≤ f ∧ f < first + count

instance (first count f : Nat) : Decidable (InRange first count f) := inferInstanceAs (Decidable (_ ∧ _))

/-- `pmm_getFrames`: unless it returns `NULL`, the caller owns the frames. -/
def Owned.get (s : Owned) (count : Nat) : Owned :=
  let (addr, pm) := pmmGetFrames s.pm count
  { pm := pm
    owners := fun f => if addr ≠ null ∧ InRange (addr / pageSize) count f then s.owners f + 1 else s.owners f }

/-- Giving a range back. -/
def Owned.release (s : Owned) (pm : Pmm) (first count : Nat) : Owned :=
  { pm := pm, owners := fun f => if InRange first count f then s.owners f - 1 else s.owners f }

/-- The states reached from an initialized manager by allocations that `allowed` permits and releases of owned ranges. -/
inductive FrameReachable (allowed : Pmm → Nat → Prop) : Owned → Prop where
  | init {pm : Pmm} (memory : Nat → BitVec 64) (mmap : List MemoryDescriptor) (fbBase fbSize kernelEnd : Nat) :
      pmmInit memory mmap fbBase fbSize kernelEnd = .ok pm → FrameReachable allowed { pm := pm, owners := fun _ => 0 }
  | get {s : Owned} (count : Nat) : FrameReachable allowed s → 0 < count → allowed s.pm count → FrameReachable allowed (s.get count)
  | release {s : Owned} {pm : Pmm} (addr count : Nat) : FrameReachable allowed s →
      (∀ f, InRange (addr / pageSize) count f → 0 < s.owners f) → pmmReleaseFrames s.pm addr count = .ok pm →
      FrameReachable allowed (s.release pm (addr / pageSize) count)

theorem releases_of_ok (h : pmmReleaseFrames pm addr count = .ok pm') :
    addr / pageSize ≤ pm.bitmapSize ∧ ∀ f, pm'.used f = (pm.used f && !decide (InRange (addr / pageSize) count f)) := by
  obtain ⟨_, hassert, hpm⟩ := bind_eq_ok.mp h
  cases hpm
  refine ⟨?_, fun f => clearFrames_used _ _ count f⟩
  by_contra hgt
  simp [decide_eq_false hgt, Bool.and_false] at hassert

/-! ## Whole runs -/

/-- The invariant: no frame has two owners, and an owned frame is used. -/
structure Exclusive (s : Owned) : Prop where
  atMostOne : ∀ f, s.owners f ≤ 1
  ownedUsed : ∀ f, 0 < s.owners f → s.pm.used f = true

/-- Allocations without a completely used word inside the run keep the invariant. -/
theorem Exclusive.get (h : Exclusive s) (hcount : 0 < count) (hu : Unbroken s.pm count) : Exclusive (s.get count) := by
  generalize hr : pmmGetFrames s.pm count = r
  obtain ⟨addr, pm'⟩ := r
  have hkeep : ∀ f, s.pm.used f = true → pm'.used f = true := by
    intro f hf
    have hset := pmmGetFrames_used count hf
    rwa [hr] at hset
  have howners : ∀ f, (s.get count).owners f =
      if addr ≠ null ∧ InRange (addr / pageSize) count f then s.owners f + 1 else s.owners f := by
    intro f
    simp only [Owned.get, hr]
  have hpm : (s.get count).pm = pm' := by simp only [Owned.get, hr]
  by_cases hne : addr ≠ null
  · have hgrant := (pmmGetFrames_exclusive_iff hcount hr hne).mpr hu
    -- a frame of the range was clear, so nobody owned it
    have hfree : ∀ f, InRange (addr / pageSize) count f → s.owners f = 0 := by
      intro f hf
      obtain ⟨i, rfl⟩ := Nat.exists_eq_add_of_le hf.1
      have hclear := hgrant.clearBefore i (by have := hf.2; omega)
      by_contra hpos
      simp [h.ownedUsed _ (Nat.pos_of_ne_zero hpos)] at hclear
    refine ⟨fun f => ?_, fun f hf => ?_⟩
    · rw [howners]
      split
      · rename_i hin
        rw [hfree f hin.2]
      · exact h.atMostOne f
    · rw [howners] at hf
      rw [hpm]
      split at hf
      · rename_i hin
        obtain ⟨i, rfl⟩ := Nat.exists_eq_add_of_le hin.2.1
        exact hgrant.setAfter i (by have := hin.2.2; omega)
      · exact hkeep f (h.ownedUsed f hf)
  · refine ⟨fun f => ?_, fun f hf => ?_⟩
    · rw [howners, if_neg fun hin => hne hin.1]
      exact h.atMostOne f
    · rw [howners, if_neg fun hin => hne hin.1] at hf
      rw [hpm]
      exact hkeep f (h.ownedUsed f hf)

theorem Exclusive.release (h : Exclusive s)
    (hr : pmmReleaseFrames s.pm addr count = .ok pm) : Exclusive (s.release pm (addr / pageSize) count) := by
  obtain ⟨-, hbits⟩ := releases_of_ok hr
  refine ⟨fun f => ?_, fun f hf => ?_⟩
  · have := h.atMostOne f
    unfold Owned.release
    dsimp only
    split <;> omega
  · have hone := h.atMostOne f
    unfold Owned.release at hf ⊢
    dsimp only at hf ⊢
    split at hf
    · omega
    · rename_i hout
      rw [hbits f, decide_eq_false hout, Bool.not_false, Bool.and_true]
      exact h.ownedUsed f hf

/-- Every state reached by such allocations and releases meets the invariant. -/
theorem FrameReachable.exclusive (h : FrameReachable Unbroken s) : Exclusive s := by
  induction h with
  | init memory mmap fbBase fbSize kernelEnd _ => exact ⟨fun _ => Nat.zero_le 1, fun f hf => absurd hf (lt_irrefl 0)⟩
  | get count _ hcount hu ih => exact ih.get hcount hu
  | release addr count _ _ hr ih => exact ih.release hr

/-- Exclusive ownership of frames. In every run whose allocations all find a first run without a completely used word inside,
no frame belongs to two live allocations and every owned frame is used; and there the next allocation that returns an address
gets clear frames, sets them and changes no other bit, exactly when its first run too has no completely used word inside. -/
theorem frames_exclusive {s : Owned} (h : FrameReachable Unbroken s) : (∀ f, s.owners f ≤ 1) ∧ (∀ f, 0 < s.owners f → s.pm.used f = true) ∧
      ∀ count addr pm', 0 < count → pmmGetFrames s.pm count = (addr, pm') → addr ≠ null →
        (ExclusiveGrant s.pm pm' (addr / pageSize) count ↔ Unbroken s.pm count) :=
  ⟨h.exclusive.atMostOne, h.exclusive.ownedUsed, fun _ _ _ hcount hr hne => pmmGetFrames_exclusive_iff hcount hr hne⟩

/-- A memory of 256 free pages, with the kernel in the first 63 and a framebuffer of one page at frame 64. -/
def exampleInit : Except Halt Pmm := pmmInit (fun _ => 0#64) [⟨mmapFree, 0, 256⟩] (64 * pageSize) pageSize (62 * pageSize)

/-- One frame of that memory: frame 63, which then has one owner. -/
theorem frames_exclusive_one : ∃ pm, exampleInit = .ok pm ∧ (Owned.get ⟨pm, fun _ => 0⟩ 1).owners 63 = 1 ∧
    ∀ f, (Owned.get ⟨pm, fun _ => 0⟩ 1).owners f ≤ 1 :=
  ⟨_, rfl, by decide +kernel,
    (frames_exclusive (.get 1 (.init (fun _ => 0#64) [⟨mmapFree, 0, 256⟩] (64 * pageSize) pageSize (62 * pageSize) rfl)
      (by decide) (unbroken_one _))).1⟩

/-- Frame 65 gets two owners. Two allocations fill the word of the frames 64 to 127, an allocation that is too large moves the
hint back to 0, and an allocation of three frames then counts the frames 63, 128 and 129 and returns the frames 63, 64
and 65. -/
theorem frame_owned_twice : ∃ pm, exampleInit = .ok pm ∧ ∃ s, FrameReachable (fun _ _ => True) s ∧
    s = ((((⟨pm, fun _ => 0⟩ : Owned).get 2).get 61).get 1000).get 3 ∧ s.owners 65 = 2 := by
  refine ⟨_, rfl, _, ?_, rfl, by decide +kernel⟩
  refine .get 3 (.get 1000 (.get 61 (.get 2 ?_ (by decide) trivial) (by decide) trivial) (by decide) trivial) (by decide) trivial
  exact .init (fun _ => 0#64) [⟨mmapFree, 0, 256⟩] (64 * pageSize) pageSize (62 * pageSize) rfl

/-! ## Giving frames back -/

/-- The release of a range passes its assertion and clears the bits of the range and no other. -/
def Releases (pm : Pmm) (addr count : Nat) : Prop :=
  ∃ pm', pmmReleaseFrames pm addr count = .ok pm' ∧
    ∀ f, pm'.used f = (pm.used f && !decide (InRange (addr / pageSize) count f))

/-- An allocation whose range is released at once leaves the bitmap as it was. -/
def Restores (pm : Pmm) (count : Nat) : Prop :=
  ∃ pm', pmmReleaseFrames (pmmGetFrames pm count).2 (pmmGetFrames pm count).1 count = .ok pm' ∧ pm'.bitmap = pm.bitmap

theorem bitmap_eq_iff (pm pm' : Pmm) : pm'.bitmap = pm.bitmap ↔ ∀ f, pm'.used f = pm.used f := by
  constructor
  · intro h f
    rw [Pmm.used, Pmm.used, h]
  · intro h
    funext i
    apply BitVec.eq_of_getLsbD_eq
    intro j hj
    have hbit := h (i * bitmapElementSize + j)
    have hmod : (i * bitmapElementSize + j) % bitmapElementSize = j := by
      unfold bitmapElementSize
      omega
    rwa [Pmm.used, Pmm.used, word_of_bit i hj, hmod] at hbit

/-- A release returns exactly when the number of the first frame is not above that of the words of the bitmap. -/
theorem releases_iff (pm : Pmm) (count : Nat) (haligned : addr % pageSize = 0) :
    Releases pm addr count ↔ addr / pageSize ≤ pm.bitmapSize := by
  constructor
  · rintro ⟨pm', hr, -⟩
    exact (releases_of_ok hr).1
  · intro hle
    refine ⟨_, bind_eq_ok.mpr ⟨(), ?_, rfl⟩, fun f => clearFrames_used _ _ count f⟩
    rw [haligned, decide_eq_true hle]
    rfl

/-- The frames that an allocation returned were all clear exactly when its first run has no completely used word inside. -/
theorem clear_iff_unbroken (hcount : 0 < count) (h : pmmGetFrames pm count = (addr, pm'))
    (hne : addr ≠ null) : (∀ f, InRange (addr / pageSize) count f → pm.used f = false) ↔ Unbroken pm count := by
  rw [← pmmGetFrames_exclusive_iff hcount h hne]
  obtain ⟨start, k, first, -, -, -, rfl, hused⟩ := pmmGetFrames_run hcount h hne
  rw [Nat.mul_div_cancel first (by decide)]
  constructor
  · intro hclear
    refine ⟨fun i hi => hclear _ ⟨by omega, by omega⟩, fun i hi => ?_, fun f hf => ?_⟩
    · rw [hused, decide_eq_true ⟨by omega, by omega⟩, Bool.or_true]
    · rw [hused, decide_eq_false (by omega), Bool.or_false]
  · rintro hgrant f ⟨hlo, hhi⟩
    obtain ⟨i, rfl⟩ := Nat.exists_eq_add_of_le hlo
    exact hgrant.clearBefore i (by omega)

/-- In whatever state, a page-aligned range can be released exactly when the number of its first frame is not above that of the words
of the bitmap, and an allocation that is released at once restores the bitmap exactly when moreover no completely used word lies
inside its first run. -/
theorem pmmReleaseFrames_iff (pm : Pmm) : (∀ addr count, addr % pageSize = 0 → (Releases pm addr count ↔ addr / pageSize ≤ pm.bitmapSize)) ∧
      ∀ count, 0 < count → (pmmGetFrames pm count).1 ≠ null →
        (Restores pm count ↔ (pmmGetFrames pm count).1 / pageSize ≤ pm.bitmapSize ∧ Unbroken pm count) := by
  refine ⟨fun addr count haligned => releases_iff pm count haligned, fun count hcount hne => ?_⟩
  have hsize := pmmGetFrames_bitmapSize pm count
  unfold Restores
  generalize hget : pmmGetFrames pm count = r at hne hsize ⊢
  obtain ⟨addr, pm1⟩ := r
  obtain ⟨start, k, first, -, -, -, haddr, hused⟩ := pmmGetFrames_run hcount hget hne
  have hfirst : addr / pageSize = first := by rw [haddr, Nat.mul_div_cancel first (by decide)]
  have hrel := releases_iff pm1 count (show addr % pageSize = 0 by rw [haddr]; exact Nat.mul_mod_left first pageSize)
  rw [hsize] at hrel
  rw [← clear_iff_unbroken hcount hget hne, ← hrel]
  constructor
  · rintro ⟨pm', hr, hsame⟩
    obtain ⟨-, hbits⟩ := releases_of_ok hr
    refine ⟨⟨pm', hr, hbits⟩, fun f hf => ?_⟩
    simp [← (bitmap_eq_iff pm pm').mp hsame f, hbits f, decide_eq_true hf]
  · rintro ⟨⟨pm', hr, hbits⟩, hclear⟩
    refine ⟨pm', hr, (bitmap_eq_iff pm pm').mpr fun f => ?_⟩
    rw [hbits f, hused f]
    by_cases hf : InRange (addr / pageSize) count f
    · rw [hclear f hf, decide_eq_true hf]
      simp
    · rw [← hfirst]
      have hf' : ¬ (addr / pageSize ≤ f ∧ f < addr / pageSize + count) := hf
      simp [hf, hf']

/-- Five words for 320 pages, and frame 1, the first one behind the kernel, taken and given back. -/
theorem pmmReleaseFrames_one : ∃ pm, pmmInit (fun _ => 0#64) [⟨mmapFree, 0, 320⟩] 0 0 0 = .ok pm ∧
    (pmmGetFrames pm 1).1 = pageSize ∧ Restores pm 1 := by
  refine ⟨_, rfl, by decide +kernel, ?_⟩
  exact ((pmmReleaseFrames_iff _).2 1 (by decide) (by decide +kernel)).mpr ⟨by decide +kernel, unbroken_one _⟩

/-- Frame 63 of a memory of 256 pages, which four words describe, is taken and cannot be given back. -/
theorem frame_not_released : ∃ pm, exampleInit = .ok pm ∧ FrameReachable (fun _ _ => True) ((⟨pm, fun _ => 0⟩ : Owned).get 1) ∧
    (pmmGetFrames pm 1).1 = 63 * pageSize ∧ ((⟨pm, fun _ => 0⟩ : Owned).get 1).owners 63 = 1 ∧
    ¬ Releases (pmmGetFrames pm 1).2 (63 * pageSize) 1 := by
  refine ⟨_, rfl, ?_, by decide +kernel, by decide +kernel, ?_⟩
  · exact .get 1 (.init (fun _ => 0#64) [⟨mmapFree, 0, 256⟩] (64 * pageSize) pageSize (62 * pageSize) rfl) (by decide) trivial
  · rw [releases_iff _ 1 (by decide), pmmGetFrames_bitmapSize]
    decide

end OmegaOS
