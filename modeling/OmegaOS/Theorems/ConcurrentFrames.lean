import OmegaOS.Lemmas.Pmm

/-!
# Concurrent requests for frames

Several requesters inside `pmm_getFrames` at once. The lock covers the search, so the search is one step; each `setFrame` of the
marking loop is a later step of its own. A search that falls between another requester's search and its last `setFrame` finds frames
that are spoken for.
-/

namespace OmegaOS

open Function

/-- Where a requester is in `pmm_getFrames`. -/
inductive Request where
  | idle
  /-- The search returned `index`, and `setFrame(index + i)` is next. -/
  | marking (index i : Nat)
  | returned (addr : Nat)
deriving DecidableEq, Repr

/-- The manager and its requesters. -/
structure Requests where
  pm : Pmm
  stage : Nat → Request

/-- A requester moves on. -/
def Requests.move (s : Requests) (r : Nat) (pm : Pmm) (stage : Request) : Requests :=
  { pm := pm, stage := update s.stage r stage }

theorem move_stage_self (s : Requests) (r : Nat) (pm : Pmm) (stage : Request) : (s.move r pm stage).stage r = stage := by
  rw [Requests.move]
  exact update_self r stage s.stage

theorem move_stage_ne (s : Requests) (pm : Pmm) (stage : Request) (h : q ≠ r) : (s.move r pm stage).stage q = s.stage q := by
  rw [Requests.move]
  exact update_of_ne h stage s.stage

/-- One step of requester `r`, which asks for `count r` frames. -/
def Requests.step (count : Nat → Nat) (s : Requests) (r : Nat) : Requests :=
  match s.stage r with
  | .idle =>
    if count r = 0 then s.move r s.pm (.returned null)
    else
      match getFrames s.pm (count r) with
      | (none, pm) => s.move r pm (.returned null)
      | (some index, pm) => s.move r pm (.marking index 0)
  | .marking index i =>
    if i < count r then s.move r (setFrame s.pm (index + i)) (.marking index (i + 1))
    else s.move r s.pm (.returned (index * pageSize))
  | .returned _ => s

/-- The states that interleavings reach in which every step is one that `allowed` permits. -/
inductive RequestReachable (count : Nat → Nat) (allowed : Requests → Nat → Prop) : Requests → Prop where
  | start (pm : Pmm) : RequestReachable count allowed { pm := pm, stage := fun _ => .idle }
  | step {s : Requests} (r : Nat) : RequestReachable count allowed s → allowed s r →
      RequestReachable count allowed (s.step count r)

/-- The requester has searched and has frames left to mark. -/
def Request.Pending (count : Nat) : Request → Prop
  | .marking _ i => i < count
  | _ => False

/-- A search starts when no requester has frames left to mark, and the first run it finds has no completely used word inside. -/
def Serial (count : Nat → Nat) (s : Requests) (r : Nat) : Prop :=
  s.stage r = .idle → (∀ q, ¬ (s.stage q).Pending (count q)) ∧ Unbroken s.pm (count r)

/-! ## The invariant -/

/-- The first frame that a requester has got. A search that finds frame 0 counts as a failure. -/
def Request.held : Request → Option Nat
  | .idle => none
  | .marking index _ => if index = 0 then none else some index
  | .returned addr => if addr = null then none else some (addr / pageSize)

theorem held_marking {index i first : Nat} (h : (Request.marking index i).held = some first) : index ≠ 0 ∧ first = index := by
  rw [Request.held] at h
  split at h
  · cases h
  · rename_i hne
    exact ⟨hne, (Option.some.inj h).symm⟩

/-- How many of its frames a requester has marked. -/
def Request.marked (count : Nat) : Request → Nat
  | .idle => 0
  | .marking _ i => i
  | .returned _ => count

/-- What requesters have marked is used, and their frames are apart. -/
structure Apart (count : Nat → Nat) (s : Requests) : Prop where
  used : ∀ r first, (s.stage r).held = some first → ∀ k < (s.stage r).marked (count r), s.pm.used (first + k) = true
  apart : ∀ r q first first', r ≠ q → (s.stage r).held = some first → (s.stage q).held = some first' →
    ∀ f, first ≤ f → f < first + count r → f < first' ∨ first' + count q ≤ f

variable {count : Nat → Nat} {s : Requests} {r index : Nat} {pm : Pmm}

/-- A requester moves on with the frames it has, or with none. -/
theorem Apart.move (h : Apart count s) {stage : Request} (hpm : ∀ f, s.pm.used f = true → pm.used f = true)
    (hheld : ∀ first, stage.held = some first → (s.stage r).held = some first)
    (hmarked : ∀ first, stage.held = some first → ∀ k < stage.marked (count r), pm.used (first + k) = true) :
    Apart count (s.move r pm stage) := by
  have hsame : ∀ q first, ((s.move r pm stage).stage q).held = some first → (s.stage q).held = some first := by
    intro q first hq
    by_cases hqr : q = r
    · subst hqr
      rw [move_stage_self] at hq
      exact hheld first hq
    · rwa [move_stage_ne s _ _ hqr] at hq
  refine ⟨fun q first hq k hk => ?_, fun q q' first first' hne hq hq' => h.apart q q' first first' hne (hsame q _ hq) (hsame q' _ hq')⟩
  by_cases hqr : q = r
  · subst hqr
    rw [move_stage_self] at hq hk
    exact hmarked first hq k hk
  · rw [move_stage_ne s _ _ hqr] at hq hk
    exact hpm _ (h.used q first hq k hk)

theorem getFrames_used (pm : Pmm) (n f : Nat) : (getFrames pm n).2.used f = pm.used f := by
  unfold getFrames
  split
  · rfl
  · split
    · rfl
    · split <;> rfl

theorem getFrames_clear {pm' : Pmm} (hn : n ≠ 0) (h : getFrames pm n = (some index, pm')) (hindex : index ≠ 0)
    (hu : Unbroken pm n) : ∀ i < n, pm.used (index + i) = false := by
  have hget : pmmGetFrames pm n = (index * pageSize, (List.range n).foldl (fun pm i => setFrame pm (index + i)) pm') := by
    rw [pmmGetFrames, if_neg hn, h]
  have hne : index * pageSize ≠ null := Nat.mul_ne_zero hindex (by decide)
  have hgrant := (pmmGetFrames_exclusive_iff (Nat.pos_of_ne_zero hn) hget hne).mpr hu
  rw [Nat.mul_div_cancel index (by decide)] at hgrant
  exact hgrant.clearBefore

/-- A search that meets the condition finds frames that no requester has. -/
theorem Apart.search (h : Apart count s) (hpend : ∀ q, ¬ (s.stage q).Pending (count q))
    (hpm : ∀ f, pm.used f = s.pm.used f) (hclear : index ≠ 0 → ∀ i < count r, s.pm.used (index + i) = false) :
    Apart count (s.move r pm (.marking index 0)) := by
  -- nobody has frames left to mark, so the frames of the others are used
  have hheld : ∀ q first, (s.stage q).held = some first → ∀ k < count q, s.pm.used (first + k) = true := by
    intro q first hq k hk
    refine h.used q first hq k ?_
    have hp := hpend q
    cases hstage : s.stage q with
    | idle => rw [hstage] at hq; cases hq
    | marking index' i =>
      rw [hstage] at hp
      exact lt_of_lt_of_le hk (not_lt.mp hp)
    | returned addr => exact hk
  have hcross : ∀ q first, (s.stage q).held = some first → index ≠ 0 → ∀ f, first ≤ f → f < first + count q →
      f < index ∨ index + count r ≤ f := by
    intro q first hq hne f hlo hhi
    by_contra hin
    have hset := hheld q first hq (f - first) (by omega)
    have hunset := hclear hne (f - index) (by omega)
    rw [show first + (f - first) = f by omega] at hset
    simp [show index + (f - index) = f by omega, hset] at hunset
  refine ⟨fun q first hq k hk => ?_, fun q q' first first' hne hq hq' f hlo hhi => ?_⟩
  · by_cases hqr : q = r
    · subst hqr
      rw [move_stage_self] at hk
      exact absurd hk (Nat.not_lt_zero k)
    · rw [move_stage_ne s _ _ hqr] at hq hk
      show pm.used (first + k) = true
      rw [hpm]
      exact h.used q first hq k hk
  · by_cases hqr : q = r
    · subst hqr
      rw [move_stage_self] at hq
      rw [move_stage_ne s _ _ hne.symm] at hq'
      obtain ⟨h0, rfl⟩ := held_marking hq
      by_contra hin
      have := hcross q' first' hq' h0 f (by omega) (by omega)
      omega
    · rw [move_stage_ne s _ _ hqr] at hq
      by_cases hqr' : q' = r
      · subst hqr'
        rw [move_stage_self] at hq'
        obtain ⟨h0, rfl⟩ := held_marking hq'
        exact hcross q first hq h0 f hlo hhi
      · rw [move_stage_ne s _ _ hqr'] at hq'
        exact h.apart q q' first first' hne hq hq' f hlo hhi

/-- A step keeps the requesters apart. -/
theorem Apart.step (h : Apart count s) (hserial : Serial count s r) : Apart count (s.step count r) := by
  unfold Requests.step
  split
  · rename_i hidle
    split
    · exact h.move (fun _ => id) (fun first hf => by cases hf) fun first hf => by cases hf
    · rename_i hcount
      obtain ⟨hpend, hu⟩ := hserial hidle
      have hpm := getFrames_used s.pm (count r)
      split
      · rename_i pm heq
        rw [heq] at hpm
        exact h.move (fun f hf => (hpm f).trans hf) (fun first hf => by cases hf) fun first hf => by cases hf
      · rename_i index pm heq
        rw [heq] at hpm
        exact h.search hpend hpm fun hindex => getFrames_clear hcount heq hindex hu
  · rename_i index i hstage
    have hmarked := h.used r
    rw [hstage] at hmarked
    split
    · refine h.move (fun f hf => ?_) (fun first hf => ?_) fun first hf k hk => ?_
      · rw [setFrame_used, hf, Bool.true_or]
      · rwa [hstage]
      · rw [setFrame_used]
        rcases Nat.lt_succ_iff_lt_or_eq.mp hk with hlt | rfl
        · rw [hmarked first hf k hlt, Bool.true_or]
        · rw [(held_marking hf).2, decide_eq_true rfl, Bool.or_true]
    · rename_i hdone
      have hheld : ∀ first, (Request.returned (index * pageSize)).held = some first → (Request.marking index i).held = some first := by
        intro first hf
        rw [Request.held] at hf
        split at hf
        · cases hf
        · rename_i hne
          rw [Nat.mul_div_cancel index (by decide)] at hf
          rwa [Request.held, if_neg (fun h0 => hne (by rw [h0]; rfl))]
      refine h.move (fun _ => id) (fun first hf => ?_) fun first hf k hk => ?_
      · rw [hstage]
        exact hheld first hf
      · exact hmarked first (hheld first hf) k (lt_of_lt_of_le hk (not_lt.mp hdone))
  · exact h

theorem RequestReachable.apart (h : RequestReachable count (Serial count) s) : Apart count s := by
  induction h with
  | start pm => exact ⟨fun r first hf => (by cases hf), fun r q first first' _ hf => by cases hf⟩
  | step r _ hserial ih => exact ih.step hserial

/-- Frames returned to different requesters are different, in every interleaving in which no search falls between another requester's
search and its last `setFrame`, and no first run has a completely used word inside. -/
theorem concurrent_frames_disjoint (h : RequestReachable count (Serial count) s) (r q addr addr' : Nat) (hne : r ≠ q)
    (hr : s.stage r = .returned addr) (hq : s.stage q = .returned addr') (haddr : addr ≠ null) (haddr' : addr' ≠ null) :
    ∀ f, addr / pageSize ≤ f → f < addr / pageSize + count r → f < addr' / pageSize ∨ addr' / pageSize + count q ≤ f := by
  refine h.apart.apart r q _ _ hne ?_ ?_
  · rw [hr, Request.held, if_neg haddr]
  · rw [hq, Request.held, if_neg haddr']

/-- A bitmap of one word with frame 0 used. -/
def oneWord : Pmm := { bitmap := fun _ => 1#64, bitmapSize := 1, lastFoundBitmap := 0 }

/-- The steps of requesters in the order of a list. -/
def Requests.run (count : Nat → Nat) (s : Requests) (rs : List Nat) : Requests := rs.foldl (Requests.step count) s

theorem step_stage_ne (count : Nat → Nat) (s : Requests) (h : q ≠ r) : (s.step count r).stage q = s.stage q := by
  unfold Requests.step
  split
  · split
    · exact move_stage_ne s _ _ h
    · split <;> exact move_stage_ne s _ _ h
  · split <;> exact move_stage_ne s _ _ h
  · rfl

/-- Requests one after the other: frame 1 and frame 2. -/
theorem concurrent_frames_disjoint_two : let s := Requests.run (fun _ => 1) { pm := oneWord, stage := fun _ => .idle } [0, 0, 0, 1, 1, 1]
    s.stage 0 = .returned (1 * pageSize) ∧ s.stage 1 = .returned (2 * pageSize) ∧
      ∀ f, 1 * pageSize / pageSize ≤ f → f < 1 * pageSize / pageSize + 1 →
        f < 2 * pageSize / pageSize ∨ 2 * pageSize / pageSize + 1 ≤ f := by
  intro s
  have h0 : s.stage 0 = .returned (1 * pageSize) := by decide
  have h1 : s.stage 1 = .returned (2 * pageSize) := by decide
  have hbusy : ∀ (t : Requests) (r : Nat), t.stage r ≠ .idle → Serial (fun _ => 1) t r := fun t r hb hidle => absurd hidle hb
  have hfirst : RequestReachable (fun _ => 1) (Serial fun _ => 1)
      (Requests.run (fun _ => 1) { pm := oneWord, stage := fun _ => .idle } [0, 0, 0]) := by
    refine .step 0 (.step 0 (.step 0 (.start oneWord) fun _ => ⟨fun q hq => hq, unbroken_one _⟩) (hbusy _ 0 ?_)) (hbusy _ 0 ?_)
    all_goals decide
  have hsecond : RequestReachable (fun _ => 1) (Serial fun _ => 1) s := by
    refine .step 1 (.step 1 (.step 1 hfirst fun _ => ⟨fun q => ?_, unbroken_one _⟩) (hbusy _ 1 ?_)) (hbusy _ 1 ?_)
    · by_cases hq : q = 0
      · subst hq
        intro hp
        rwa [show Requests.stage _ 0 = Request.returned (1 * pageSize) by decide] at hp
      · intro hp
        rw [Requests.run, List.foldl, List.foldl, List.foldl, List.foldl, step_stage_ne _ _ hq, step_stage_ne _ _ hq,
          step_stage_ne _ _ hq] at hp
        exact hp
    all_goals decide
  exact ⟨h0, h1, concurrent_frames_disjoint hsecond 0 1 _ _ (by decide) h0 h1 (by decide) (by decide)⟩

/-- Two requests whose searches come before either marks: both get frame 1. -/
theorem concurrent_frames_shared : RequestReachable (fun _ => 1) (fun _ _ => True)
        (Requests.run (fun _ => 1) { pm := oneWord, stage := fun _ => .idle } [0, 1, 0, 1, 0, 1]) ∧
      (Requests.run (fun _ => 1) { pm := oneWord, stage := fun _ => .idle } [0, 1, 0, 1, 0, 1]).stage 0 = .returned (1 * pageSize) ∧
      (Requests.run (fun _ => 1) { pm := oneWord, stage := fun _ => .idle } [0, 1, 0, 1, 0, 1]).stage 1 = .returned (1 * pageSize) := by
  refine ⟨?_, by decide, by decide⟩
  exact .step 1 (.step 0 (.step 1 (.step 0 (.step 1 (.step 0 (.start oneWord) trivial) trivial) trivial) trivial) trivial) trivial

end OmegaOS
