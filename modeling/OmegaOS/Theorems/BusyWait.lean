import Mathlib.Algebra.GroupWithZero.Nat
import OmegaOS.Pit

/-!
# How long a busy wait counts

`pit_sleep_no_int` cuts its total into countdowns of 65535 and leaves when less than 65536 is left. What is left is not counted, so the
sum is the total only when the first countdown has all of it.
-/

namespace OmegaOS

variable {status : Nat → Nat → BitVec 8} {total : BitVec 64} {fuel rounds i : Nat} {cs : List Countdown}

/-- Every countdown expires: some answer has bit 7. -/
def Expires (status : Nat → Nat → BitVec 8) : Prop := ∀ i, ∃ j, status i j &&& 1 <<< 7 ≠ 0

/-- The loop returns, and the countdowns are as long as the total. -/
def SleepsExactly (status : Nat → Nat → BitVec 8) (ms : Nat) : Prop :=
  ∃ fuel cs, pitSleepNoInt status fuel ms = .ok cs ∧ (cs.map (·.length)).sum = 0x4A9 * ms

/-! ## One countdown -/

theorem waitExpired_ok (status : Nat → BitVec 8) (hj : status j &&& 1 <<< 7 ≠ 0) {k fuel : Nat} (hk : k ≤ j) (hfuel : j - k < fuel) :
    waitExpired status fuel k = .ok () := by
  induction fuel generalizing k with
  | zero => omega
  | succ fuel ih =>
    rw [waitExpired]
    split
    · rename_i hzero
      have hne : k ≠ j := by
        rintro rfl
        exact hj hzero
      exact ih (by omega) (by omega)
    · rfl

theorem toNat_sleepCount (total : BitVec 64) : (sleepCount total).toNat = min total.toNat 0xFFFF := by
  rw [sleepCount, BitVec.toNat_setWidth]
  split
  · rename_i h
    have : total.toNat < 0xFFFF := h
    omega
  · rename_i h
    have : ¬ total.toNat < 0xFFFF := h
    simp
    omega

theorem length_programCount (count : BitVec 16) : (programCount count).length = if count.toNat = 0 then 2 ^ 16 else count.toNat := by
  have hlow : (programCount count).low.toNat = count.toNat % 2 ^ 8 := by
    rw [programCount, BitVec.toNat_setWidth, BitVec.toNat_and, show (0xFF : BitVec 16).toNat = 2 ^ 8 - 1 from rfl, Nat.and_two_pow_sub_one_eq_mod]
    omega
  have hhigh : (programCount count).high.toNat = count.toNat / 2 ^ 8 := by
    rw [programCount, BitVec.toNat_setWidth, BitVec.toNat_ushiftRight, Nat.shiftRight_eq_div_pow]
    omega
  rw [Countdown.length, hlow, hhigh]
  rw [show count.toNat % 2 ^ 8 + count.toNat / 2 ^ 8 * 2 ^ 8 = count.toNat by omega]

theorem toNat_and_low (total : BitVec 64) : (total &&& 0xFFFF#64).toNat = total.toNat % 2 ^ 16 := by
  rw [BitVec.toNat_and, show (0xFFFF#64).toNat = 2 ^ 16 - 1 from rfl, Nat.and_two_pow_sub_one_eq_mod]

theorem mask_eq_zero_iff (total : BitVec 64) : total &&& ~~~0xFFFF#64 = 0#64 ↔ total.toNat < 2 ^ 16 := by
  constructor
  · intro h
    have hlow : total &&& 0xFFFF#64 = total := by
      have hsplit : (total &&& 0xFFFF#64) ||| (total &&& ~~~0xFFFF#64) = total := by
        rw [← BitVec.and_or_distrib_left, BitVec.or_not_self, BitVec.and_allOnes]
      rwa [h, BitVec.or_zero] at hsplit
    rw [← hlow, toNat_and_low]
    exact Nat.mod_lt _ (by decide)
  · intro h
    have hlow : total &&& 0xFFFF#64 = total := by
      rw [← BitVec.toNat_inj, toNat_and_low, Nat.mod_eq_of_lt h]
    rw [← hlow, BitVec.and_assoc, BitVec.and_not_self]
    exact BitVec.and_zero

/-! ## The loop -/

theorem toNat_left (total : BitVec 64) : (total - (sleepCount total).setWidth 64).toNat = total.toNat - min total.toNat 0xFFFF := by
  have hcount := toNat_sleepCount total
  have hwide : ((sleepCount total).setWidth 64).toNat = (sleepCount total).toNat := BitVec.toNat_setWidth_of_le (by decide)
  rw [BitVec.toNat_sub_of_le (by rw [BitVec.le_def, hwide, hcount]; exact Nat.min_le_left _ _), hwide, hcount]

/-- With enough rounds for the total, the loop returns. -/
theorem sleepLoop_ok (hwait : ∀ k, i ≤ k → k < i + n → waitExpired (status k) fuel 0 = .ok ()) (htotal : total.toNat < n * 0xFFFF)
    (hrounds : n ≤ rounds) : ∃ cs, sleepLoop status fuel rounds i total = .ok cs := by
  induction n generalizing i total rounds with
  | zero => omega
  | succ n ih =>
    obtain ⟨rounds, rfl⟩ := Nat.exists_eq_add_of_le' (Nat.le_trans (Nat.succ_pos n) hrounds)
    have hleft := toNat_left total
    rw [sleepLoop, hwait i .refl (by omega)]
    by_cases hstop : total - (sleepCount total).setWidth 64 &&& ~~~0xFFFF#64 = 0#64
    · exact ⟨_, if_neg (not_not_intro hstop)⟩
    · have hmore := (mask_eq_zero_iff _).not.mp hstop
      obtain ⟨rest, hrest⟩ : ∃ rest, sleepLoop status fuel rounds (i + 1) (total - (sleepCount total).setWidth 64) = .ok rest :=
        ih (fun k hlo hhi => hwait k (by omega) (by omega)) (by omega) (by omega)
      refine ⟨programCount (sleepCount total) :: rest, (if_pos hstop).trans ?_⟩
      rw [hrest]
      rfl

/-- What the countdowns of the loop sum up to: all of a total that the first one has room for, except that 0 counts as 65536; less than
any other. -/
theorem sleepLoop_sum (h : sleepLoop status fuel rounds i total = .ok cs) :
    if total.toNat < 2 ^ 16 then (cs.map (·.length)).sum = if total.toNat = 0 then 2 ^ 16 else total.toNat
    else (cs.map (·.length)).sum < total.toNat := by
  induction rounds generalizing i total cs with
  | zero => cases h
  | succ rounds ih =>
    have hleft := toNat_left total
    have hlength := length_programCount (sleepCount total)
    rw [toNat_sleepCount] at hlength
    rw [sleepLoop] at h
    obtain ⟨-, -, h⟩ := bind_eq_ok.mp h
    by_cases hstop : total - (sleepCount total).setWidth 64 &&& ~~~0xFFFF#64 = 0#64
    · rw [if_neg (not_not_intro hstop)] at h
      cases h
      rw [List.map_singleton, List.sum_singleton, hlength]
      split
      · rename_i hsmall
        rw [Nat.min_eq_left (by omega)]
      · rw [if_neg (by omega)]
        omega
    · rw [if_pos hstop] at h
      obtain ⟨rest, hrest, h⟩ := bind_eq_ok.mp h
      cases h
      have hmore := (mask_eq_zero_iff _).not.mp hstop
      have hsum := ih hrest
      rw [if_neg hmore] at hsum
      rw [if_neg (by omega), List.map_cons, List.sum_cons, hlength, if_neg (by omega)]
      omega

/-! ## `pit_sleep_no_int` -/

/-- There is a number of questions after which the first `n` countdowns have expired. -/
theorem Expires.bound (h : Expires status) (n : Nat) : ∃ bound, ∀ fuel ≥ bound, ∀ i < n, waitExpired (status i) fuel 0 = .ok () := by
  induction n with
  | zero => exact ⟨0, fun _ _ i hi => absurd hi (Nat.not_lt_zero i)⟩
  | succ n ih =>
    obtain ⟨bound, hbound⟩ := ih
    obtain ⟨j, hj⟩ := h n
    refine ⟨max bound (j + 1), fun fuel hfuel i hi => ?_⟩
    rcases Nat.lt_succ_iff_lt_or_eq.mp hi with hlt | rfl
    · exact hbound fuel (by omega) i hlt
    · exact waitExpired_ok _ hj (Nat.zero_le j) (by omega)

theorem pitSleepNoInt_returns (h : Expires status) (ms : Nat) : ∃ fuel cs, pitSleepNoInt status fuel ms = .ok cs := by
  generalize htotal : BitVec.ofNat 64 (0x4A9 * ms) = total
  obtain ⟨bound, hbound⟩ := h.bound (total.toNat / 0xFFFF + 1)
  refine ⟨max bound (total.toNat / 0xFFFF + 1), ?_⟩
  rw [pitSleepNoInt, htotal]
  have hwait : ∀ k, 0 ≤ k → k < 0 + (total.toNat / 0xFFFF + 1) → waitExpired (status k) (max bound (total.toNat / 0xFFFF + 1)) 0 = .ok () :=
    fun k _ hk => hbound _ (Nat.le_max_left _ _) k (by omega)
  exact sleepLoop_ok hwait (by omega) (Nat.le_max_right _ _)

/-- The wait returns, and its countdowns sum up to the total exactly when there is something to count and it fits one countdown. -/
theorem pitSleep_exact_iff (hexpires : Expires status) {ms : Nat} (hms : 0x4A9 * ms < 2 ^ 64) :
    (∃ fuel cs, pitSleepNoInt status fuel ms = .ok cs) ∧ (SleepsExactly status ms ↔ 1 ≤ ms ∧ ms ≤ 54) := by
  refine ⟨pitSleepNoInt_returns hexpires ms, ?_⟩
  have htotal : (BitVec.ofNat 64 (0x4A9 * ms)).toNat = 0x4A9 * ms := by
    rw [BitVec.toNat_ofNat, Nat.mod_eq_of_lt hms]
  have hsum : ∀ fuel cs, pitSleepNoInt status fuel ms = .ok cs → ((cs.map (·.length)).sum = 0x4A9 * ms ↔ 1 ≤ ms ∧ ms ≤ 54) := by
    intro fuel cs hrun
    have h := sleepLoop_sum hrun
    rw [htotal] at h
    split at h
    · split at h <;> omega
    · omega
  constructor
  · rintro ⟨fuel, cs, hrun, hexact⟩
    exact (hsum fuel cs hrun).mp hexact
  · intro h
    obtain ⟨fuel, cs, hrun⟩ := pitSleepNoInt_returns hexpires ms
    exact ⟨fuel, cs, hrun, (hsum fuel cs hrun).mpr h⟩

/-- A timer that has always expired when it is asked. -/
theorem pitSleep_exact_one : (∃ fuel cs, pitSleepNoInt (fun _ _ => 0x80) fuel 1 = .ok cs) ∧ (SleepsExactly (fun _ _ => 0x80) 1 ↔ 1 ≤ 1 ∧ 1 ≤ 54) :=
  pitSleep_exact_iff (fun _ => ⟨0, by decide⟩) (by decide)

/-- In 55 ms there are 65615 ticks. The first countdown has 65535 of them, and there is no other. -/
theorem pitSleep_drops_rest : pitSleepNoInt (fun _ _ => 0x80) 3 55 = .ok [⟨0xFF, 0xFF⟩] ∧ ¬ SleepsExactly (fun _ _ => 0x80) 55 := by
  refine ⟨rfl, ?_⟩
  rintro ⟨fuel, cs, hrun, hexact⟩
  have hsum := sleepLoop_sum hrun
  rw [if_neg (by decide), hexact] at hsum
  exact absurd hsum (by decide)

end OmegaOS
