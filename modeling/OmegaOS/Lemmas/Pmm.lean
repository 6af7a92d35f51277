import Mathlib.Data.List.Sort
import OmegaOS.Lib.Window
import OmegaOS.Pmm

/-!
# The frame bitmap as a predicate on frames

What setting, clearing and searching do to the predicate `Pmm.used`. The search is the scan for the first window over the
frames of the words that are not completely used.
-/

namespace OmegaOS

open Window List

variable {pm pm' : Pmm} {addr count f frames pos run start j k first last : Nat} {s : Search} {l : List Nat}

/-- The bit of a frame. -/
def Pmm.used (pm : Pmm) (f : Nat) : Bool := (pm.bitmap (f / bitmapElementSize)).getLsbD (f % bitmapElementSize)

/-- The frame is not used. -/
def Pmm.clear (pm : Pmm) (f : Nat) : Bool := !pm.used f

/-! ## Setting and clearing -/

theorem word_of_bit (i : Nat) (hj : j < 64) : (i * bitmapElementSize + j) / bitmapElementSize = i := by
  unfold bitmapElementSize
  omega

theorem testFrame_eq (pm : Pmm) (i : Nat) (hj : j < 64) : testFrame pm i j = pm.used (i * bitmapElementSize + j) := by
  have hdiv := word_of_bit i hj
  have hmod : (i * bitmapElementSize + j) % bitmapElementSize = j := by
    unfold bitmapElementSize
    omega
  rw [Pmm.used, hdiv, hmod, testFrame]
  cases hbit : (pm.bitmap i).getLsbD j with
  | false =>
    rw [bne_eq_false_iff_eq]
    apply BitVec.eq_of_getLsbD_eq
    intro c hc
    rw [BitVec.getLsbD_and, getLsbD_bit j hc]
    by_cases h : c = j
    · subst h
      simp [hbit]
    · simp [h]
  | true =>
    rw [bne_iff_ne]
    intro h
    have := congrArg (fun w => w.getLsbD j) h
    simp [getLsbD_bit j hj, hbit] at this

/-- Two frames with the same word and bit are the same. -/
theorem frame_eq_iff (f g : Nat) :
    f = g ↔ f / bitmapElementSize = g / bitmapElementSize ∧ f % bitmapElementSize = g % bitmapElementSize := by
  unfold bitmapElementSize
  omega

theorem setFrame_used (pm : Pmm) (index f : Nat) : (setFrame pm index).used f = (pm.used f || decide (f = index)) := by
  have hc : f % bitmapElementSize < 64 := Nat.mod_lt _ (by decide)
  by_cases hw : f / bitmapElementSize = index / bitmapElementSize
  · simp [Pmm.used, setFrame, hw, BitVec.getLsbD_or, getLsbD_bit _ hc, frame_eq_iff f index]
  · simp [Pmm.used, setFrame, frame_eq_iff f index, hw]

theorem clearFrame_used (pm : Pmm) (index f : Nat) : (clearFrame pm index).used f = (pm.used f && !decide (f = index)) := by
  have hc : f % bitmapElementSize < 64 := Nat.mod_lt _ (by decide)
  by_cases hw : f / bitmapElementSize = index / bitmapElementSize
  · simp only [Pmm.used, clearFrame, hw, Function.update_self, BitVec.getLsbD_and, BitVec.getLsbD_not, getLsbD_bit _ hc, hc, decide_true,
      Bool.true_and, frame_eq_iff f index, true_and]
  · simp [Pmm.used, clearFrame, frame_eq_iff f index, hw]

theorem setFrames_used (pm : Pmm) (index count f : Nat) : ((List.range count).foldl (fun pm i => setFrame pm (index + i)) pm).used f =
      (pm.used f || decide (index ≤ f ∧ f < index + count)) := by
  induction count with
  | zero => simp
  | succ count ih =>
    rw [range_succ, foldl_append, foldl_cons, foldl_nil, setFrame_used, ih, Bool.or_assoc, ← Bool.decide_or]
    congr 2
    apply propext
    omega

theorem clearFrames_used (pm : Pmm) (index count f : Nat) : ((List.range count).foldl (fun pm i => clearFrame pm (index + i)) pm).used f =
      (pm.used f && !decide (index ≤ f ∧ f < index + count)) := by
  induction count with
  | zero =>
    have hempty : decide (index ≤ f ∧ f < index + 0) = false := decide_eq_false (by omega)
    rw [hempty]
    simp
  | succ count ih =>
    rw [range_succ, foldl_append, foldl_cons, foldl_nil, clearFrame_used, ih, Bool.and_assoc, ← Bool.not_or, ← Bool.decide_or]
    congr 3
    apply propext
    omega

/-! ## The search -/

/-- The frames of a list of words, without those of the completely used ones. -/
def Pmm.framesOf (pm : Pmm) (is : List Nat) : List Nat :=
  (is.filter (fun i => pm.bitmap i ≠ BitVec.allOnes 64)).flatMap fun i =>
    (List.range bitmapElementSize).map (i * bitmapElementSize + ·)

/-- The frames the search looks at, in order: those of the words that are not completely used, from a word on. -/
def Pmm.searched (pm : Pmm) (start : Nat) : List Nat := pm.framesOf (List.range' start (pm.bitmapSize - start))

/-- The loop variables stand for a run of `run` clear frames that ends before position `pos`. -/
structure Search.Refines (s : Search) (frames : Nat) (l : List Nat) (pos run : Nat) : Prop where
  short : run < frames
  inside : run ≤ pos
  fbFound : s.fbFound = decide (0 < run)
  bCopy : s.bCopy = frames - run
  index : 0 < run → l[pos - run]? = some s.index

/-- A clear frame at the position extends the run; the index is that of its first frame. -/
theorem Search.Refines.extend (h : s.Refines frames l pos run) (hf : l[pos]? = some f) :
    l[pos - run]? = some (if !s.fbFound then { s with fbFound := true, index := f } else s).index ∧
      (if !s.fbFound then { s with fbFound := true, index := f } else s).fbFound = true ∧
      (if !s.fbFound then { s with fbFound := true, index := f } else s).bCopy = frames - run := by
  by_cases hrun : 0 < run
  · have hfb : s.fbFound = true := by rw [h.fbFound, decide_eq_true hrun]
    simp [hfb, h.index hrun, h.bCopy]
  · have hfb : s.fbFound = false := by rw [h.fbFound, decide_eq_false hrun]
    have hz : run = 0 := by omega
    subst hz
    simp [hfb, hf, h.bCopy]

/-- The inner loop scans the frames of its word. -/
theorem searchBits_scan {rest : List Nat} (js : List Nat) (hjs : ∀ j ∈ js, j < 64) (h : s.Refines frames l pos run)
    (hl : l.drop pos = js.map (i * bitmapElementSize + ·) ++ rest) :
    (∀ index, searchBits pm frames i js s = .error index → ∃ k, scan pm.clear frames (l.drop pos) pos run = some k ∧ l[k]? = some index ∧
        (l[k + (frames - 1)]?).map (· / bitmapElementSize) = some i) ∧
    (∀ s', searchBits pm frames i js s = .ok s' →
      ∃ run', scan pm.clear frames (l.drop pos) pos run = scan pm.clear frames rest (pos + js.length) run' ∧
        s'.Refines frames l (pos + js.length) run') := by
  induction js generalizing s pos run with
  | nil =>
    refine ⟨fun index he => (by cases he), fun s' he => ?_⟩
    cases he
    exact ⟨run, by rw [hl]; rfl, h⟩
  | cons j js ih =>
    have hj : j < 64 := hjs j mem_cons_self
    have hf : l[pos]? = some (i * bitmapElementSize + j) := by rw [← head?_drop, hl]; rfl
    have hnext : l.drop (pos + 1) = js.map (i * bitmapElementSize + ·) ++ rest := by
      rw [← drop_drop, hl]
      rfl
    have ih' := fun {s : Search} {run : Nat} h => @ih (pos + 1) run s (fun j hj => hjs j (.tail _ hj)) h hnext
    have hlen : pos + 1 + js.length = pos + (j :: js).length := by
      rw [length_cons]
      omega
    have hscan : l.drop pos = (i * bitmapElementSize + j) :: l.drop (pos + 1) := by
      rw [hl, hnext]
      rfl
    rw [hscan, scan, searchBits, testFrame_eq pm i hj]
    have hshort := h.short
    have hinside := h.inside
    cases hu : pm.used (i * bitmapElementSize + j) with
    | true =>
      have hc : ¬ pm.clear (i * bitmapElementSize + j) = true := by simp [Pmm.clear, hu]
      rw [if_neg hc]
      have hnew : (if s.fbFound then { s with fbFound := false, bCopy := frames } else s).Refines frames l (pos + 1) 0 := by
        by_cases hrun : 0 < run
        · have hfb : s.fbFound = true := by rw [h.fbFound, decide_eq_true hrun]
          rw [if_pos hfb]
          exact ⟨by omega, by omega, rfl, rfl, fun h0 => absurd h0 (by omega)⟩
        · have hfb : s.fbFound = false := by rw [h.fbFound, decide_eq_false hrun]
          have hb := h.bCopy
          rw [if_neg (by simp [hfb])]
          exact ⟨by omega, by omega, hfb, by omega, fun h0 => absurd h0 (by omega)⟩
      simpa only [Bool.not_true, Bool.false_eq_true, if_false, hlen] using ih' hnew
    | false =>
      have hc : pm.clear (i * bitmapElementSize + j) = true := by simp [Pmm.clear, hu]
      rw [if_pos hc]
      obtain ⟨hidx, hfb, hb⟩ := h.extend hf
      simp only [Bool.not_false, if_true]
      generalize (if !s.fbFound then { s with fbFound := true, index := i * bitmapElementSize + j } else s) = t at hidx hfb hb
      by_cases hdone : run + 1 = frames
      · rw [if_pos hdone, if_pos (by omega)]
        refine ⟨fun index he => ?_, fun s' he => (by cases he)⟩
        cases he
        have heq : pos + 1 - frames = pos - run := by omega
        have hpos : pos - run + (frames - 1) = pos := by omega
        refine ⟨_, rfl, by rwa [heq], ?_⟩
        rw [heq, hpos, hf, Option.map_some, word_of_bit i hj]
      · rw [if_neg hdone, if_neg (by omega)]
        have hnew : ({ t with bCopy := t.bCopy - 1 } : Search).Refines frames l (pos + 1) (run + 1) := by
          refine ⟨by omega, by omega, ?_, ?_, fun _ => ?_⟩
          · simpa using hfb
          · show t.bCopy - 1 = frames - (run + 1)
            omega
          · have heq : pos + 1 - (run + 1) = pos - run := by omega
            rwa [heq]
        simpa only [hlen] using ih' hnew

/-- The outer loop scans the words that are not completely used. -/
theorem searchWords_scan (is : List Nat) (h : s.Refines frames l pos run) (hl : l.drop pos = pm.framesOf is) :
    (∀ i index, searchWords pm frames is s = some (i, index) →
      ∃ k, scan pm.clear frames (l.drop pos) pos run = some k ∧ l[k]? = some index ∧
        (l[k + (frames - 1)]?).map (· / bitmapElementSize) = some i) ∧
    (searchWords pm frames is s = none → scan pm.clear frames (l.drop pos) pos run = none) := by
  induction is generalizing s pos run with
  | nil =>
    refine ⟨fun i index he => (by cases he), fun _ => ?_⟩
    rw [hl]
    rfl
  | cons i is ih =>
    unfold searchWords
    by_cases hw : pm.bitmap i ≠ BitVec.allOnes 64
    · rw [if_pos hw]
      have hsplit : pm.framesOf (i :: is) = (range bitmapElementSize).map (i * bitmapElementSize + ·) ++ pm.framesOf is := by
        rw [Pmm.framesOf, filter_cons, if_pos (decide_eq_true hw), flatMap_cons]
        rfl
      rw [hsplit] at hl
      obtain ⟨herr, hok⟩ := searchBits_scan (range bitmapElementSize) (fun j hj => mem_range.mp hj) h hl
      cases hb : searchBits pm frames i (range bitmapElementSize) s with
      | error index =>
        refine ⟨fun i' index' he => ?_, fun he => (by cases he)⟩
        cases he
        exact herr index hb
      | ok s' =>
        obtain ⟨run', hscan, hnew⟩ := hok s' hb
        have hnext : l.drop (pos + (range bitmapElementSize).length) = pm.framesOf is := by
          rw [← drop_drop, hl, length_range]
          exact drop_left' (by simp)
        rw [hscan, ← hnext]
        exact ih hnew hnext
    · rw [if_neg hw]
      refine ih h ?_
      rw [hl]
      simp [Pmm.framesOf, not_not.mp hw]

/-- The search finds the first window of clear frames among those it looks at, and the word of the window's last frame. -/
theorem searchFrom_firstAt (pm : Pmm) (hpos : 0 < frames) (start : Nat) : (∀ i index, searchFrom pm frames start = some (i, index) →
      ∃ k, FirstAt pm.clear frames (pm.searched start) k ∧ (pm.searched start)[k]? = some index ∧
        ((pm.searched start)[k + (frames - 1)]?).map (· / bitmapElementSize) = some i) ∧
    (searchFrom pm frames start = none → ∀ k, ¬ At pm.clear frames (pm.searched start) k) := by
  have href : (⟨false, 0, frames⟩ : Search).Refines frames (pm.searched start) 0 0 :=
    ⟨hpos, le_refl 0, rfl, rfl, fun h => absurd h (by omega)⟩
  obtain ⟨hsome, hnone⟩ := searchWords_scan (range' start (pm.bitmapSize - start)) href rfl
  obtain ⟨hfirst, hno⟩ := scan_spec (pm.searched start) (scanned_zero hpos _) rfl
  constructor
  · intro i index he
    obtain ⟨k, hk, hidx, hword⟩ := hsome i index he
    exact ⟨k, hfirst k hk, hidx, hword⟩
  · intro he
    exact hno (hnone he)

/-! ## Windows of adjacent frames -/

/-- A frame the search looks at is in a word of the bitmap, from the start on, that is not completely used. -/
theorem mem_searched : f ∈ pm.searched start ↔ start ≤ f / bitmapElementSize ∧ f / bitmapElementSize < pm.bitmapSize ∧
      pm.bitmap (f / bitmapElementSize) ≠ BitVec.allOnes 64 := by
  simp only [Pmm.searched, Pmm.framesOf, mem_flatMap, mem_filter, mem_range'_1, mem_map, mem_range,
    decide_eq_true_eq]
  constructor
  · rintro ⟨i, ⟨⟨hs, hlt⟩, hw⟩, j, hj, rfl⟩
    rw [word_of_bit i hj]
    exact ⟨hs, by omega, hw⟩
  · rintro ⟨hs, hlt, hw⟩
    refine ⟨f / bitmapElementSize, ⟨⟨hs, by omega⟩, hw⟩, f % bitmapElementSize, Nat.mod_lt _ (by decide), ?_⟩
    rw [mul_comm]
    exact Nat.div_add_mod f bitmapElementSize

/-- A clear frame of the bitmap is one the search looks at. -/
theorem clear_mem_searched (hs : start ≤ f / bitmapElementSize)
    (hlt : f / bitmapElementSize < pm.bitmapSize) (hc : pm.clear f = true) : f ∈ pm.searched start := by
  refine mem_searched.mpr ⟨hs, hlt, fun hfull => ?_⟩
  have hmod : f % bitmapElementSize < 64 := Nat.mod_lt _ (by decide)
  rw [Pmm.clear, Pmm.used, hfull, BitVec.getLsbD_allOnes] at hc
  simp [hmod] at hc

theorem searched_sorted (pm : Pmm) (start : Nat) : (pm.searched start).Pairwise (· < ·) := by
  unfold Pmm.searched Pmm.framesOf
  rw [pairwise_flatMap]
  constructor
  · intro i _
    rw [pairwise_map]
    exact pairwise_lt_range.imp (by intro a b hab; omega)
  · refine List.Pairwise.imp ?_ (List.Pairwise.filter _ (pairwise_lt_range' 1 (by decide)))
    intro i i' hlt x hx y hy
    obtain ⟨j, hj, rfl⟩ := mem_map.mp hx
    obtain ⟨j', hj', rfl⟩ := mem_map.mp hy
    have hj := mem_range.mp hj
    unfold bitmapElementSize at *
    omega

/-! ## One allocation -/

/-- The first run of `count` clear frames among the frames looked at from a word on has no completely used word inside. -/
def UnbrokenFrom (pm : Pmm) (count start : Nat) : Prop :=
  ∀ k first last, FirstAt pm.clear count (pm.searched start) k → (pm.searched start)[k]? = some first →
    (pm.searched start)[k + (count - 1)]? = some last → last = first + (count - 1)

/-- ... from the hint on, and from word 0 on when there is no run from the hint on. -/
def Unbroken (pm : Pmm) (count : Nat) : Prop :=
  UnbrokenFrom pm count pm.lastFoundBitmap ∧
    ((∀ k, ¬ At pm.clear count (pm.searched pm.lastFoundBitmap) k) → UnbrokenFrom pm count 0)

/-- What an allocation of `count` frames from frame `first` on must do to the bitmap: all were clear, all are set, and no other
bit changes. -/
structure ExclusiveGrant (pm pm' : Pmm) (first count : Nat) : Prop where
  clearBefore : ∀ i < count, pm.used (first + i) = false
  setAfter : ∀ i < count, pm'.used (first + i) = true
  others : ∀ f, f < first ∨ first + count ≤ f → pm'.used f = pm.used f

/-- The word that the search starts from: the hint, or word 0 when there is no run from the hint on. -/
def SearchStart (pm : Pmm) (count start : Nat) : Prop :=
  start = pm.lastFoundBitmap ∨ start = 0 ∧ ∀ k, ¬ At pm.clear count (pm.searched pm.lastFoundBitmap) k

/-- `getFrames` returns the first frame of the first run and moves the hint to the word of the last, and it fails only when no run is
in the bitmap. -/
theorem getFrames_spec (pm : Pmm) (hcount : 0 < count) :
    (∃ start k first i, getFrames pm count = (some first, { pm with lastFoundBitmap := i }) ∧ SearchStart pm count start ∧
      FirstAt pm.clear count (pm.searched start) k ∧ (pm.searched start)[k]? = some first ∧
      ((pm.searched start)[k + (count - 1)]?).map (· / bitmapElementSize) = some i) ∨
    getFrames pm count = (none, { pm with lastFoundBitmap := 0 }) ∧ ∀ start, SearchStart pm count start →
      ∀ k, ¬ At pm.clear count (pm.searched start) k := by
  obtain ⟨hsome, hnone⟩ := searchFrom_firstAt pm hcount pm.lastFoundBitmap
  obtain ⟨hsome0, hnone0⟩ := searchFrom_firstAt pm hcount 0
  unfold getFrames
  cases hs : searchFrom pm count pm.lastFoundBitmap with
  | some r =>
    obtain ⟨i, index⟩ := r
    obtain ⟨k, hk, hidx, hword⟩ := hsome i index hs
    exact .inl ⟨_, k, index, i, rfl, .inl rfl, hk, hidx, hword⟩
  | none =>
    by_cases hz : pm.lastFoundBitmap = 0
    · refine .inr ⟨?_, ?_⟩
      · simp only [hz, if_true]
        rw [← hz]
      · rintro start (rfl | ⟨rfl, hno⟩)
        · exact hnone hs
        · rwa [hz] at hno
    · simp only [if_neg hz]
      cases hs0 : searchFrom pm count 0 with
      | some r =>
        obtain ⟨i, index⟩ := r
        obtain ⟨k, hk, hidx, hword⟩ := hsome0 i index hs0
        exact .inl ⟨0, k, index, i, rfl, .inr ⟨rfl, hnone hs⟩, hk, hidx, hword⟩
      | none =>
        refine .inr ⟨rfl, ?_⟩
        rintro start (rfl | ⟨rfl, -⟩)
        · exact hnone hs
        · exact hnone0 hs0

/-- An address that is returned is that of the first frame of the first run, and the frames from there on are set. -/
theorem pmmGetFrames_run (hcount : 0 < count) (h : pmmGetFrames pm count = (addr, pm')) (hne : addr ≠ null) :
    ∃ start k first, SearchStart pm count start ∧
      FirstAt pm.clear count (pm.searched start) k ∧ (pm.searched start)[k]? = some first ∧ addr = first * pageSize ∧
      ∀ f, pm'.used f = (pm.used f || decide (first ≤ f ∧ f < first + count)) := by
  rw [pmmGetFrames, if_neg (by omega)] at h
  rcases getFrames_spec pm hcount with ⟨start, k, first, i, heq, hstart, hk, hfirst, -⟩ | ⟨heq, -⟩
  · rw [heq] at h
    cases h
    exact ⟨start, k, first, hstart, hk, hfirst, rfl, fun f => setFrames_used _ first count f⟩
  · rw [heq] at h
    cases h
    exact absurd rfl hne

/-- The condition on the search, at the run that it finds. -/
theorem unbroken_iff (hstart : SearchStart pm count start) (hk : FirstAt pm.clear count (pm.searched start) k)
    (hfirst : (pm.searched start)[k]? = some first)
    (hlast : (pm.searched start)[k + (count - 1)]? = some last) : Unbroken pm count ↔ last = first + (count - 1) := by
  have hfrom : UnbrokenFrom pm count start ↔ last = first + (count - 1) := by
    constructor
    · intro h
      exact h k first last hk hfirst hlast
    · intro h k' first' last' hk' hfirst' hlast'
      obtain rfl := hk.unique hk'
      rw [hfirst] at hfirst'
      rw [hlast] at hlast'
      cases hfirst'
      cases hlast'
      exact h
  rcases hstart with rfl | ⟨rfl, hno⟩
  · rw [← hfrom]
    exact ⟨fun h => h.1, fun h => ⟨h, fun hno => absurd hk.1 (hno k)⟩⟩
  · rw [← hfrom]
    exact ⟨fun h => h.2 hno, fun h => ⟨fun k' _ _ hk' => absurd hk'.1 (hno k'), fun _ => h⟩⟩

/-- The frames from the first one on are clear exactly when they are the frames that were counted. -/
theorem clear_iff_consecutive (hcount : 0 < count)
    (hk : FirstAt pm.clear count (pm.searched start) k) (hfirst : (pm.searched start)[k]? = some first)
    (hlast : (pm.searched start)[k + (count - 1)]? = some last) :
    (∀ i < count, pm.used (first + i) = false) ↔ last = first + (count - 1) := by
  have hsorted := searched_sorted pm start
  have hle := add_le_of_increasing hsorted hfirst hlast
  have hmemFirst := mem_searched.mp (mem_of_getElem? hfirst)
  have hmemLast := mem_searched.mp (mem_of_getElem? hlast)
  constructor
  · intro hclear
    have hmem : ∀ j ≤ count - 1, first + j ∈ pm.searched start := by
      intro j hj
      refine clear_mem_searched (hmemFirst.1.trans ?_) (lt_of_le_of_lt ?_ hmemLast.2.1) ?_
      · exact Nat.div_le_div_right (by omega)
      · exact Nat.div_le_div_right (by omega)
      · rw [Pmm.clear, hclear j (by omega)]
        rfl
    have := getElem?_of_mem_consecutive hsorted hfirst hmem
    rw [hlast] at this
    exact Option.some.inj this
  · rintro rfl i hi
    have hget := getElem?_of_consecutive hsorted hfirst hlast (j := i) (by omega)
    have := hk.1.2 i hi _ hget
    simpa [Pmm.clear] using this

/-- An allocation that returns an address is exclusive exactly when no completely used word lies inside the first run. -/
theorem pmmGetFrames_exclusive_iff (hcount : 0 < count) (h : pmmGetFrames pm count = (addr, pm')) (hne : addr ≠ null) :
    ExclusiveGrant pm pm' (addr / pageSize) count ↔ Unbroken pm count := by
  obtain ⟨start, k, first, hstart, hk, hfirst, rfl, hused⟩ := pmmGetFrames_run hcount h hne
  have hdiv : first * pageSize / pageSize = first := Nat.mul_div_cancel first (by decide)
  obtain ⟨last, hlast⟩ : ∃ last, (pm.searched start)[k + (count - 1)]? = some last := by
    have := hk.1.1
    exact ⟨_, getElem?_eq_getElem (by omega)⟩
  rw [hdiv, unbroken_iff hstart hk hfirst hlast, ← clear_iff_consecutive hcount hk hfirst hlast]
  constructor
  · exact fun hx => hx.clearBefore
  · intro hclear
    refine ⟨hclear, fun i hi => ?_, fun f hf => ?_⟩
    · rw [hused, decide_eq_true ⟨by omega, by omega⟩, Bool.or_true]
    · rw [hused, decide_eq_false (by omega), Bool.or_false]

theorem unbroken_one (pm : Pmm) : Unbroken pm 1 := by
  have hfrom : ∀ start, UnbrokenFrom pm 1 start := by
    intro start k first last _ hfirst hlast
    rw [Nat.sub_self, Nat.add_zero, hfirst] at hlast
    cases hlast
    rfl
  exact ⟨hfrom _, fun _ => hfrom 0⟩

theorem pmmGetFrames_used (count : Nat) (hu : pm.used f = true) : (pmmGetFrames pm count).2.used f = true := by
  unfold pmmGetFrames
  split
  · exact hu
  · have hget : (getFrames pm count).2.used f = true := by
      unfold getFrames
      split
      · exact hu
      · split
        · exact hu
        · split <;> exact hu
    split
    · rename_i pm1 he
      rwa [he] at hget
    · rename_i index pm1 he
      rw [he] at hget
      rw [setFrames_used, hget, Bool.true_or]

theorem pmmGetFrames_bitmapSize (pm : Pmm) (count : Nat) : (pmmGetFrames pm count).2.bitmapSize = pm.bitmapSize := by
  have hset : ∀ (is : List Nat) (index : Nat) (pm : Pmm),
      (is.foldl (fun pm i => setFrame pm (index + i)) pm).bitmapSize = pm.bitmapSize := by
    intro is index
    induction is with
    | nil => exact fun _ => rfl
    | cons i is ih => exact fun pm => ih (setFrame pm (index + i))
  have hget : (getFrames pm count).2.bitmapSize = pm.bitmapSize := by
    unfold getFrames
    split
    · rfl
    · split
      · rfl
      · split <;> rfl
  unfold pmmGetFrames
  split
  · rfl
  · split
    · rename_i he
      rwa [he] at hget
    · rename_i he
      rw [he] at hget
      exact (hset _ _ _).trans hget

theorem pmmGetFrames_lt (hcount : 0 < count) (h : pmmGetFrames pm count = (addr, pm'))
    (hne : addr ≠ null) : addr < pm.bitmapSize * bitmapElementSize * pageSize := by
  obtain ⟨start, k, first, _, _, hfirst, haddr, _⟩ := pmmGetFrames_run hcount h hne
  obtain ⟨_, hlt, _⟩ := mem_searched.mp (mem_of_getElem? hfirst)
  have hmul := (Nat.div_lt_iff_lt_mul (by decide)).mp hlt
  rw [haddr]
  exact Nat.mul_lt_mul_of_pos_right hmul (by decide)

end OmegaOS
