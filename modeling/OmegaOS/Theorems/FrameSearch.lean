import OmegaOS.Lemmas.Pmm

/-!
# The search for frames

`getFrames` ends after two passes and fails only when there is nothing to find, wherever the hint points; for one frame it is first
fit from the hint on, and from frame 0 on when nothing is left there.
-/

namespace OmegaOS

open Window

variable {pm pm' : Pmm} {count start first k f : Nat}

/-! ## Passes -/

/-- `getFrames` with the calls it makes of itself, each a pass over the words; `none` when it is not done in as many. -/
def getFramesPasses : Nat → Pmm → Nat → Option (Option Nat × Pmm)
  | 0, _, _ => none
  | passes + 1, pm, frames =>
    match searchFrom pm frames pm.lastFoundBitmap with
    | some (i, index) => some (some index, { pm with lastFoundBitmap := i })
    | none =>
      if pm.lastFoundBitmap = 0 then some (none, pm)
      else getFramesPasses passes { pm with lastFoundBitmap := 0 } frames

theorem searchBits_hint (pm : Pmm) (hint frames i : Nat) (js : List Nat) (s : Search) :
    searchBits { pm with lastFoundBitmap := hint } frames i js s = searchBits pm frames i js s := by
  induction js generalizing s with
  | nil => rfl
  | cons j js ih =>
    simp only [searchBits, ih]
    rfl

theorem searchWords_hint (pm : Pmm) (hint frames : Nat) (is : List Nat) (s : Search) :
    searchWords { pm with lastFoundBitmap := hint } frames is s = searchWords pm frames is s := by
  induction is generalizing s with
  | nil => rfl
  | cons i is ih =>
    simp only [searchWords, searchBits_hint, ih]

theorem getFramesPasses_two (pm : Pmm) (frames : Nat) : getFramesPasses 2 pm frames = some (getFrames pm frames) := by
  have hagain : searchFrom { pm with lastFoundBitmap := 0 } frames 0 = searchFrom pm frames 0 := searchWords_hint pm 0 frames _ _
  unfold getFrames
  rw [getFramesPasses]
  cases searchFrom pm frames pm.lastFoundBitmap with
  | some r => rfl
  | none =>
    by_cases hz : pm.lastFoundBitmap = 0
    · simp only [if_pos hz]
    · simp only [if_neg hz, getFramesPasses, hagain]
      cases searchFrom pm frames 0 with
      | some r => rfl
      | none => rfl

/-! ## Runs of clear frames -/

/-- Adjacent frames of the bitmap that are all clear. -/
def ClearRun (pm : Pmm) (first count : Nat) : Prop :=
  first + count ≤ pm.bitmapSize * bitmapElementSize ∧ ∀ i < count, pm.used (first + i) = false

/-- A run of clear frames is a window of the frames that the search looks at. -/
theorem ClearRun.window (h : ClearRun pm first count) (hcount : 0 < count) (hs : start ≤ first / bitmapElementSize) :
    ∃ k, At pm.clear count (pm.searched start) k := by
  have hclear : ∀ i < count, pm.clear (first + i) = true := by
    intro i hi
    rw [Pmm.clear, h.2 i hi]
    rfl
  have hmem : ∀ i < count, first + i ∈ pm.searched start := by
    intro i hi
    refine clear_mem_searched (hs.trans (Nat.div_le_div_right (by omega))) ?_ (hclear i hi)
    rw [Nat.div_lt_iff_lt_mul (by decide)]
    have := h.1
    omega
  obtain ⟨k, hk⟩ := List.getElem?_of_mem (hmem 0 hcount)
  have hget : ∀ i < count, (pm.searched start)[k + i]? = some (first + i) := by
    intro i hi
    exact getElem?_of_mem_consecutive (searched_sorted pm start) hk fun j hj => hmem j (by omega)
  refine ⟨k, ?_, fun i hi x hx => ?_⟩
  · have := (List.getElem?_eq_some_iff.mp (hget (count - 1) (by omega))).1
    omega
  · rw [hget i hi] at hx
    cases hx
    exact hclear i hi

/-- Whatever the bitmap and the hint, `getFrames` is done after two passes at most, and it fails only when the bitmap has no run of
that many clear frames. -/
theorem getFrames_complete (pm : Pmm) (hcount : 0 < count) : getFramesPasses 2 pm count = some (getFrames pm count) ∧
      ((getFrames pm count).1 = none → ∀ first, ¬ ClearRun pm first count) := by
  refine ⟨getFramesPasses_two pm count, fun hnone first hrun => ?_⟩
  rcases getFrames_spec pm hcount with ⟨_, _, _, _, heq, -⟩ | ⟨-, hno⟩
  · rw [heq] at hnone
    cases hnone
  · obtain ⟨k, hk⟩ := hrun.window hcount (Nat.zero_le _)
    exact hno 0 (Or.inr ⟨rfl, hno _ (Or.inl rfl)⟩) k hk

/-- Three clear frames in one word, with the hint beyond the bitmap. -/
def threeClear : Pmm := { bitmap := fun _ => 0xFFFFFFFFFFFFFF1F, bitmapSize := 1, lastFoundBitmap := 5 }

/-- Four frames are not found there. -/
theorem getFrames_complete_four : (getFrames threeClear 4).1 = none ∧ ∀ first, ¬ ClearRun threeClear first 4 := by
  have hnone : (getFrames threeClear 4).1 = none := by decide
  exact ⟨hnone, (getFrames_complete threeClear (by decide)).2 hnone⟩

/-! ## One frame -/

/-- The lowest clear frame of the bitmap that is not below `lo`. -/
structure LowestClear (pm : Pmm) (lo f : Nat) : Prop where
  inside : lo ≤ f ∧ f < pm.bitmapSize * bitmapElementSize
  clear : pm.used f = false
  below : ∀ g, lo ≤ g → g < f → pm.used g = true

/-- Frame `f` was taken: its bit is set and no other changes, and the hint is its word. -/
structure FrameTaken (pm pm' : Pmm) (f : Nat) : Prop where
  bits : ∀ g, pm'.used g = (pm.used g || decide (g = f))
  hint : pm'.lastFoundBitmap = f / bitmapElementSize
  size : pm'.bitmapSize = pm.bitmapSize

theorem le_word_iff (start f : Nat) : start ≤ f / bitmapElementSize ↔ start * bitmapElementSize ≤ f := Nat.le_div_iff_mul_le (by decide)

theorem word_lt_iff (pm : Pmm) (f : Nat) : f / bitmapElementSize < pm.bitmapSize ↔ f < pm.bitmapSize * bitmapElementSize :=
  Nat.div_lt_iff_lt_mul (by decide)

theorem clearRun_one (hf : f < pm.bitmapSize * bitmapElementSize) (hc : pm.used f = false) : ClearRun pm f 1 := by
  refine ⟨hf, fun i hi => ?_⟩
  obtain rfl : i = 0 := by omega
  exact hc

/-- When there is no window of one, every frame is used. -/
theorem used_of_no_window (h : ∀ k, ¬ At pm.clear 1 (pm.searched start) k) (hlo : start * bitmapElementSize ≤ f)
    (hf : f < pm.bitmapSize * bitmapElementSize) : pm.used f = true := by
  by_contra hc
  obtain ⟨k, hk⟩ := (clearRun_one hf (by simpa using hc)).window one_pos ((le_word_iff start f).mpr hlo)
  exact h k hk

/-- The first window of one is the lowest clear frame. -/
theorem lowestClear_of_firstAt (hk : FirstAt pm.clear 1 (pm.searched start) k) (hf : (pm.searched start)[k]? = some f) :
    LowestClear pm (start * bitmapElementSize) f := by
  obtain ⟨hlo, hhi, -⟩ := mem_searched.mp (List.mem_of_getElem? hf)
  refine ⟨⟨(le_word_iff start f).mp hlo, (word_lt_iff pm f).mp hhi⟩, ?_, fun g hg hlt => ?_⟩
  · have hclear := hk.1.2 0 one_pos f hf
    simpa [Pmm.clear] using hclear
  · by_contra hc
    have hgc : pm.clear g = true := by simpa [Pmm.clear] using hc
    have hmem :=
      clear_mem_searched ((le_word_iff start g).mpr hg) ((word_lt_iff pm g).mpr (by have := (word_lt_iff pm f).mp hhi; omega)) hgc
    -- the position of a lower frame is lower, and there is a window at it
    obtain ⟨k', hk'⟩ := List.getElem?_of_mem hmem
    obtain ⟨hlen', hget'⟩ := List.getElem?_eq_some_iff.mp hk'
    have hpos : k' < k := by
      by_contra hge
      have hsplit : k' = k + (k' - k) := by omega
      rw [hsplit] at hk'
      have := add_le_of_increasing (searched_sorted pm start) hf hk'
      omega
    refine hk.2 k' hpos ⟨hlen', fun j hj x hx => ?_⟩
    obtain rfl : j = 0 := by omega
    rw [add_zero, hk'] at hx
    cases hx
    exact hgc

/-- `pmm_getFrame` takes the lowest clear frame from the hint on, or from frame 0 on when none is left there, or finds every frame
used. -/
theorem pmmGetFrame_spec (pm : Pmm) : (∃ f pm', pmmGetFrame pm = (f * pageSize, pm') ∧ FrameTaken pm pm' f ∧
      (LowestClear pm (pm.lastFoundBitmap * bitmapElementSize) f ∨
        (∀ g, pm.lastFoundBitmap * bitmapElementSize ≤ g → g < pm.bitmapSize * bitmapElementSize → pm.used g = true) ∧
          LowestClear pm 0 f)) ∨
    (pmmGetFrame pm).1 = null ∧ ∀ g < pm.bitmapSize * bitmapElementSize, pm.used g = true := by
  unfold pmmGetFrame pmmGetFrames
  rw [if_neg Nat.one_ne_zero]
  rcases getFrames_spec pm one_pos with ⟨start, k, f, i, heq, hstart, hk, hf, hword⟩ | ⟨heq, hno⟩
  · left
    have hlow := lowestClear_of_firstAt hk hf
    rw [Nat.sub_self, Nat.add_zero, hf] at hword
    rw [heq]
    refine ⟨f, _, rfl, ⟨fun g => ?_, (Option.some.inj hword).symm, rfl⟩, ?_⟩
    · have hone : (f ≤ g ∧ g < f + 1) ↔ g = f := by omega
      rw [setFrames_used, decide_eq_decide.mpr hone]
      rfl
    · rcases hstart with rfl | ⟨rfl, hnone⟩
      · exact .inl hlow
      · rw [Nat.zero_mul] at hlow
        exact .inr ⟨fun g hlo hhi => used_of_no_window hnone hlo hhi, hlow⟩
  · right
    rw [heq]
    refine ⟨rfl, fun g hg => used_of_no_window (hno 0 (.inr ⟨rfl, hno _ (.inl rfl)⟩)) ?_ hg⟩
    rw [Nat.zero_mul]
    exact Nat.zero_le g

/-- With frame 0 reserved, `pmm_getFrame` fails exactly when every frame is used. Otherwise it returns the lowest clear frame from the
hint on, or the lowest of all when none is left there, sets its bit only, and makes its word the hint. -/
theorem pmmGetFrame_firstFit (hzero : pm.used 0 = true) :
    ((pmmGetFrame pm).1 = null ↔ ∀ f < pm.bitmapSize * bitmapElementSize, pm.used f = true) ∧
      ((pmmGetFrame pm).1 ≠ null → ∃ f, (pmmGetFrame pm).1 = f * pageSize ∧ FrameTaken pm (pmmGetFrame pm).2 f ∧
        (LowestClear pm (pm.lastFoundBitmap * bitmapElementSize) f ∨
          (∀ g, pm.lastFoundBitmap * bitmapElementSize ≤ g → g < pm.bitmapSize * bitmapElementSize → pm.used g = true) ∧
            LowestClear pm 0 f)) := by
  rcases pmmGetFrame_spec pm with ⟨f, pm', heq, htaken, hlow⟩ | ⟨hnull, hall⟩
  · rw [heq]
    have hclear : f < pm.bitmapSize * bitmapElementSize ∧ pm.used f = false := by
      rcases hlow with h | ⟨-, h⟩
      · exact ⟨h.inside.2, h.clear⟩
      · exact ⟨h.inside.2, h.clear⟩
    have hne : f * pageSize ≠ null := by
      intro he
      obtain rfl : f = 0 := (Nat.mul_eq_zero.mp he).resolve_right (by decide)
      rw [hzero] at hclear
      cases hclear.2
    refine ⟨iff_of_false hne fun hall => ?_, fun _ => ⟨f, rfl, htaken, hlow⟩⟩
    rw [hall f hclear.1] at hclear
    cases hclear.2
  · exact ⟨iff_of_true hnull hall, fun hne => absurd hnull hne⟩

/-- From a hint beyond the bitmap, frame 5. -/
theorem pmmGetFrame_firstFit_five : ∃ f, (pmmGetFrame threeClear).1 = f * pageSize ∧ LowestClear threeClear 0 f ∧
    (pmmGetFrame threeClear).1 = 5 * pageSize := by
  obtain ⟨f, haddr, -, hlow⟩ := (@pmmGetFrame_firstFit threeClear (by decide)).2 (by decide)
  have hfive : (pmmGetFrame threeClear).1 = 5 * pageSize := by decide
  rcases hlow with hlow | ⟨-, hlow⟩
  · have hpast : 5 * 64 ≤ f ∧ f < 1 * 64 := hlow.inside
    omega
  · exact ⟨f, haddr, hlow, hfive⟩

end OmegaOS
