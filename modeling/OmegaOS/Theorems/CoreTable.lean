import Mathlib.Data.List.Nodup
import Mathlib.Data.List.Range
import OmegaOS.Theorems.Bringup

/-!
# The table of processors

`_BspID` is the whole register of which `apic_get_id` takes the high byte, `bsp_init` fills the first entry of `_Cores` and `smp_init`
fills the entry of each processor whose id is not `_BspID`. The three agree only for a BSP with the id 0, listed first.
-/

namespace OmegaOS

open List Function

variable {cfg : SmpConfig} {s s' : Smp} {woken : List Nat} {contexts0 contexts : Nat → CoreContext} {info : CoreLaunchInfo} {pg : Paging}

/-- The ids that the MADT lists. -/
def SmpConfig.ids (cfg : SmpConfig) : List Nat := (List.range cfg.coreCount).map cfg.coreIDs

/-- The ids in `_Cores`. -/
def tableIds (cfg : SmpConfig) (contexts : Nat → CoreContext) : List Nat := (List.range cfg.coreCount).map fun i => (contexts i).id

/-- The id of the BSP, which `apic_get_id` returns on it. -/
def SmpConfig.bspApicId (cfg : SmpConfig) : Nat := cfg.bspID / 2 ^ 24

/-- The calls of `apic_wakeup_core` in a step of the BSP. -/
def wakeups (cfg : SmpConfig) (s : Smp) : List Nat := if s.bsp = .wakeup then [cfg.coreIDs s.i % 2 ^ 8] else []

/-- The states that interleavings reach, with the ids that `apic_wakeup_core` was called for. -/
inductive SmpRun (cfg : SmpConfig) (s₀ : Smp) : List Nat → Smp → Prop where
  | init : SmpRun cfg s₀ [] s₀
  | bsp {woken : List Nat} {s s' : Smp} : SmpRun cfg s₀ woken s → bspStep cfg s = some s' → SmpRun cfg s₀ (woken ++ wakeups cfg s) s'
  | ap {woken : List Nat} {s s' : Smp} (j : Nat) : SmpRun cfg s₀ woken s → apStep j s = some s' → SmpRun cfg s₀ woken s'

/-- The table holds each processor once, each processor finds itself in it, and all but the BSP were woken once. -/
structure TableOk (cfg : SmpConfig) (contexts : Nat → CoreContext) (woken : List Nat) : Prop where
  once : ∀ id ∈ cfg.ids, (tableIds cfg contexts).count id = 1
  found : ∀ id ∈ cfg.ids, ∃ i, currentCPU cfg.coreCount contexts id = .ok i ∧ (contexts i).id = id
  woken : ∀ id ∈ cfg.ids, woken.count id = if id = cfg.bspApicId then 0 else 1

/-! ## What the loop does to the table -/

/-- The processor of the round has been woken. -/
def BspStage.awake : BspStage → Bool
  | .next | .clearAp | .wakeup => false
  | _ => true

/-- The entry of the processor of the round is filled. -/
def BspStage.filled : BspStage → Bool
  | .storeContext | .storePml4 | .storeStackTop | .storeEntry | .signal => true
  | _ => false

/-- What a step of the BSP can do to the table. -/
inductive TableStep (cfg : SmpConfig) (s s' : Smp) : Prop where
  /-- The BSP's own id is passed over. -/
  | skip (hbsp : s.bsp = .next) (hlt : s.i < cfg.coreCount) (hid : cfg.coreIDs s.i = cfg.bspID) (hbsp' : s'.bsp = .next)
      (hi : s'.i = s.i + 1) (hcontexts : s'.contexts = s.contexts)
  | enter (hbsp : s.bsp = .next) (hlt : s.i < cfg.coreCount) (hid : cfg.coreIDs s.i ≠ cfg.bspID) (hbsp' : s'.bsp = .clearAp)
      (hi : s'.i = s.i) (hcontexts : s'.contexts = s.contexts)
  | wake (hbsp : s.bsp = .wakeup) (hbsp' : s'.bsp = .poll apTimeoutRetry) (hi : s'.i = s.i) (hcontexts : s'.contexts = s.contexts)
  | fill (hbsp : s.bsp = .create) (hbsp' : s'.bsp = .storeContext) (hi : s'.i = s.i) (stack : Nat)
      (hcontexts : s'.contexts = update s.contexts s.i ⟨cfg.coreIDs s.i % 2 ^ 8, stack, null⟩)
  | leave (hbsp : s.bsp = .signal) (hbsp' : s'.bsp = .next) (hi : s'.i = s.i + 1) (hcontexts : s'.contexts = s.contexts)
  | inner (hnext : s.bsp ≠ .next) (hwakeup : s.bsp ≠ .wakeup) (hawake : s'.bsp.awake = s.bsp.awake)
      (hfilled : s'.bsp.filled = s.bsp.filled) (hi : s'.i = s.i) (hcontexts : s'.contexts = s.contexts)

theorem bspStep_table (hstep : bspStep cfg s = some s') : TableStep cfg s s' := by
  cases bspStep_move hstep with
  | skip hb hlt hid => exact .skip hb hlt hid hb rfl rfl
  | enter hb hlt hid => exact .enter hb hlt hid rfl rfl rfl
  | wakeup hb => exact .wake hb rfl rfl rfl
  | create hb _ => exact .fill hb rfl rfl _ rfl
  | signal hb => exact .leave hb rfl rfl rfl
  | poll hb hstage =>
    rcases hstage with rfl | ⟨left, rfl⟩ <;> exact .inner (by simp [hb]) (by simp [hb]) (by rw [hb]; rfl) (by rw [hb]; rfl) rfl rfl
  | halt hb _ => rcases hb with hb | hb <;> exact .inner (by simp [hb]) (by simp [hb]) (by rw [hb]; rfl) (by rw [hb]; rfl) rfl rfl
  | clearAp hb | check hb | storeContext hb | storePml4 hb | storeStackTop hb | storeEntry hb =>
    exact .inner (by simp [hb]) (by simp [hb]) (by rw [hb]; rfl) (by rw [hb]; rfl) rfl rfl

theorem apStep_table (hstep : apStep j s = some s') : s'.bsp = s.bsp ∧ s'.i = s.i ∧ s'.contexts = s.contexts := by
  rw [apStep] at hstep
  cases hap : s.aps j with
  | off | entered => simp [hap] at hstep
  | spin =>
    simp only [hap] at hstep
    split at hstep <;> cases hstep <;> exact ⟨rfl, rfl, rfl⟩
  | _ =>
    simp only [hap] at hstep
    cases hstep
    exact ⟨rfl, rfl, rfl⟩

/-- The entries are filled, and the processors woken, up to the round that the BSP is in. -/
structure TableInv (cfg : SmpConfig) (contexts0 : Nat → CoreContext) (woken : List Nat) (s : Smp) : Prop where
  round : s.bsp ≠ .next → s.i < cfg.coreCount ∧ cfg.coreIDs s.i ≠ cfg.bspID
  le : s.i ≤ cfg.coreCount
  ids : ∀ k, (s.contexts k).id = if cfg.coreIDs k ≠ cfg.bspID ∧ (k < s.i ∨ k = s.i ∧ s.bsp.filled = true) then cfg.coreIDs k % 2 ^ 8
    else (contexts0 k).id
  log : woken = ((List.range (s.i + if s.bsp.awake then 1 else 0)).map cfg.coreIDs).filter fun id => id ≠ cfg.bspID

theorem tableInv_smpInit (cfg : SmpConfig) (info : CoreLaunchInfo) (pg : Paging) (contexts : Nat → CoreContext) :
    TableInv cfg contexts [] (smpInit info pg contexts) := by
  refine ⟨fun h => absurd rfl h, Nat.zero_le _, fun k => ?_, rfl⟩
  simp [smpInit, BspStage.filled]

theorem wakeups_of_ne (h : s.bsp ≠ .wakeup) : wakeups cfg s = [] := if_neg h

/-- A step of the BSP keeps the invariant. -/
theorem TableInv.bspStep (h : TableInv cfg contexts0 woken s) (hids : ∀ i < cfg.coreCount, cfg.coreIDs i < 2 ^ 8)
    (hstep : TableStep cfg s s') : TableInv cfg contexts0 (woken ++ wakeups cfg s) s' := by
  have hround := h.round
  have hidsk := h.ids
  have hlog := h.log
  cases hstep with
  | skip hbsp hlt hid hbsp' hi hcontexts =>
    rw [wakeups_of_ne (by simp [hbsp]), append_nil]
    refine ⟨fun hne => absurd hbsp' hne, hi ▸ hlt, fun k => ?_, ?_⟩
    · have hk : cfg.coreIDs k ≠ cfg.bspID → k ≠ s.i := fun hne he => hne (he ▸ hid)
      rw [hcontexts, hidsk k, hbsp, hbsp', hi]
      refine if_congr (and_congr_right fun hne => ?_) rfl rfl
      have := hk hne
      simp only [BspStage.filled, Bool.false_eq_true, and_false, or_false]
      omega
    · rw [hlog, hbsp, hbsp', hi]
      simp [BspStage.awake, range_succ, hid]
  | enter hbsp hlt hid hbsp' hi hcontexts =>
    rw [wakeups_of_ne (by simp [hbsp]), append_nil]
    refine ⟨fun _ => hi ▸ ⟨hlt, hid⟩, hi ▸ h.le, fun k => ?_, ?_⟩
    · rw [hcontexts, hidsk k, hbsp, hbsp', hi]
      rfl
    · rw [hlog, hbsp, hbsp', hi]
      rfl
  | wake hbsp hbsp' hi hcontexts =>
    obtain ⟨hlt, hid⟩ := hround (by simp [hbsp])
    refine ⟨fun _ => hi ▸ ⟨hlt, hid⟩, hi ▸ h.le, fun k => ?_, ?_⟩
    · rw [hcontexts, hidsk k, hbsp, hbsp', hi]
      rfl
    · rw [hlog, wakeups, if_pos hbsp, Nat.mod_eq_of_lt (hids _ hlt), hbsp, hbsp', hi]
      simp [BspStage.awake, range_succ, hid]
  | fill hbsp hbsp' hi stack hcontexts =>
    obtain ⟨hlt, hid⟩ := hround (by simp [hbsp])
    rw [wakeups_of_ne (by simp [hbsp]), append_nil]
    refine ⟨fun _ => hi ▸ ⟨hlt, hid⟩, hi ▸ h.le, fun k => ?_, ?_⟩
    · rw [hcontexts, hbsp', hi]
      by_cases hk : k = s.i
      · subst hk
        simp [hid, BspStage.filled]
      · rw [update_of_ne hk, hidsk k]
        simp [hk]
    · rw [hlog, hbsp, hbsp', hi]
      rfl
  | leave hbsp hbsp' hi hcontexts =>
    obtain ⟨hlt, hid⟩ := hround (by simp [hbsp])
    rw [wakeups_of_ne (by simp [hbsp]), append_nil]
    refine ⟨fun hne => absurd hbsp' hne, hi ▸ hlt, fun k => ?_, ?_⟩
    · rw [hcontexts, hidsk k, hbsp, hbsp', hi]
      refine if_congr (and_congr_right fun _ => ?_) rfl rfl
      simp only [BspStage.filled, Bool.false_eq_true, and_false, or_false, and_true]
      omega
    · rw [hlog, hbsp, hbsp', hi]
      rfl
  | inner hnext hwakeup hawake hfilled hi hcontexts =>
    rw [wakeups_of_ne hwakeup, append_nil]
    refine ⟨fun _ => hi ▸ hround hnext, hi ▸ h.le, fun k => ?_, ?_⟩
    · rw [hcontexts, hidsk k, hfilled, hi]
    · rw [hlog, hawake, hi]

theorem SmpRun.tableInv (hids : ∀ i < cfg.coreCount, cfg.coreIDs i < 2 ^ 8)
    (hrun : SmpRun cfg (smpInit info pg contexts) woken s) : TableInv cfg contexts woken s := by
  induction hrun with
  | init => exact tableInv_smpInit cfg info pg contexts
  | bsp _ hstep ih => exact ih.bspStep hids (bspStep_table hstep)
  | ap j _ hstep ih =>
    obtain ⟨hbsp, hi, hcontexts⟩ := apStep_table hstep
    refine ⟨?_, ?_, ?_, ?_⟩
    · rw [hbsp, hi]
      exact ih.round
    · rw [hi]
      exact ih.le
    · rw [hbsp, hi, hcontexts]
      exact ih.ids
    · rw [hbsp, hi]
      exact ih.log

/-! ## The table at the end -/

/-- The MADT lists distinct ids of a byte, among them that of the BSP. -/
structure Listed (cfg : SmpConfig) : Prop where
  byte : ∀ i < cfg.coreCount, cfg.coreIDs i < 2 ^ 8
  nodup : cfg.ids.Nodup
  bsp : cfg.bspApicId ∈ cfg.ids

/-- `_BspID` is the id of the BSP, and its entry in the table is the first, or holds the id before anything is written to it. -/
def BspFirst (cfg : SmpConfig) (contexts0 : Nat → CoreContext) : Prop :=
  cfg.bspID = 0 ∧ (cfg.coreIDs 0 = 0 ∨ ∃ p < cfg.coreCount, cfg.coreIDs p = 0 ∧ (contexts0 p).id = 0)

theorem mem_ids {id : Nat} : id ∈ cfg.ids ↔ ∃ i < cfg.coreCount, cfg.coreIDs i = id := by
  simp [SmpConfig.ids]

/-- A table with the listed ids, each in its place. -/
theorem tableOk_of_ids (h : Listed cfg) (hbsp : cfg.bspID = cfg.bspApicId) (hids : ∀ k < cfg.coreCount, (contexts k).id = cfg.coreIDs k) :
    TableOk cfg contexts (cfg.ids.filter fun id => id ≠ cfg.bspID) := by
  have htable : tableIds cfg contexts = cfg.ids := map_congr_left fun k hk => hids k (mem_range.mp hk)
  refine ⟨fun id hid => ?_, fun id hid => ?_, fun id hid => ?_⟩
  · rw [htable]
    exact count_eq_one_of_mem h.nodup hid
  · obtain ⟨k, hk, rfl⟩ := mem_ids.mp hid
    have hsome : ((range cfg.coreCount).find? fun i => (contexts i).id = cfg.coreIDs k).isSome := by
      rw [find?_isSome]
      exact ⟨k, mem_range.mpr hk, by simp [hids k hk]⟩
    obtain ⟨i, hi⟩ := Option.isSome_iff_exists.mp hsome
    refine ⟨i, by rw [currentCPU, hi], ?_⟩
    simpa using find?_some hi
  · rw [hbsp]
    split
    · exact count_eq_zero.mpr fun hmem => by simp_all
    · exact count_eq_one_of_mem (h.nodup.filter _) (mem_filter.mpr ⟨hid, by simpa⟩)

theorem SmpRun.done (h : Listed cfg) (hrun : SmpRun cfg (smpInit info pg contexts) woken s)
    (hnext : s.bsp = .next) (hi : cfg.coreCount ≤ s.i) : woken = cfg.ids.filter (fun id => id ≠ cfg.bspID) ∧
      ∀ k < cfg.coreCount, (s.contexts k).id = if cfg.coreIDs k ≠ cfg.bspID then cfg.coreIDs k else (contexts k).id := by
  have hinv := hrun.tableInv h.byte
  have hcount : s.i = cfg.coreCount := le_antisymm hinv.le hi
  refine ⟨?_, fun k hk => ?_⟩
  · rw [hinv.log, hnext, hcount]
    rfl
  · rw [hinv.ids k, hcount, Nat.mod_eq_of_lt (h.byte k hk)]
    simp [hk]

theorem bspInit_contexts {pg0 : Paging} (hinit : bspInit cfg pg0 contexts0 = .ok (pg, contexts)) :
    ∃ stack, contexts = update contexts0 0 ⟨cfg.bspID / 2 ^ 24 % 2 ^ 8, stack, null⟩ := by
  rw [bspInit] at hinit
  obtain ⟨⟨stack, pg1⟩, -, hret⟩ := bind_eq_ok.mp hinit
  cases stack with
  | none => cases hret
  | some stack => exact ⟨stack, (Prod.mk.inj (Except.ok.inj hret)).2.symm⟩

/-- When `smp_init` is over, the table and the wakeups are right exactly when `_BspID` is 0 and the BSP is listed first, or its entry
holds its id by chance. -/
theorem coreTable_iff {pg₀ pg : Paging} {info : CoreLaunchInfo} (h : Listed cfg) (hinit : bspInit cfg pg₀ contexts0 = .ok (pg, contexts))
    (hrun : SmpRun cfg (smpInit info pg contexts) woken s) (hnext : s.bsp = .next) (hi : cfg.coreCount ≤ s.i) :
    TableOk cfg s.contexts woken ↔ BspFirst cfg contexts0 := by
  obtain ⟨hwoken, hids⟩ := hrun.done h hnext hi
  obtain ⟨stack, rfl⟩ := bspInit_contexts hinit
  obtain ⟨p, hp, hbsp⟩ := mem_ids.mp h.bsp
  have hpbyte := h.byte p hp
  have hinj : ∀ k < cfg.coreCount, cfg.coreIDs k = cfg.coreIDs p → k = p := by
    intro k hk he
    exact List.inj_on_of_nodup_map h.nodup (List.mem_range.mpr hk) (List.mem_range.mpr hp) he
  constructor
  · intro hok
    -- a BSP with another id would have been woken
    have hzero : cfg.bspID = 0 := by
      by_contra hne
      have hid : cfg.bspApicId ≠ cfg.bspID := by
        rw [SmpConfig.bspApicId]
        omega
      have hcount := hok.woken _ h.bsp
      rw [if_pos rfl, hwoken, List.count_eq_zero] at hcount
      exact hcount (List.mem_filter.mpr ⟨h.bsp, by simpa using hid⟩)
    have hapic : cfg.bspApicId = 0 := by simp [SmpConfig.bspApicId, hzero]
    refine ⟨hzero, or_iff_not_imp_left.mpr fun hfirst => ⟨p, hp, hbsp.trans hapic, ?_⟩⟩
    have hp0 : p ≠ 0 := by
      rintro rfl
      exact hfirst (hbsp.trans hapic)
    obtain ⟨i, hi, hid⟩ : ∃ i < cfg.coreCount, (s.contexts i).id = cfg.bspApicId := by
      have hcount := hok.once _ h.bsp
      have hmem : cfg.bspApicId ∈ tableIds cfg s.contexts := List.count_pos_iff.mp (by omega)
      simpa [tableIds] using hmem
    rw [hids i hi, hzero, hapic] at hid
    split at hid
    · exact absurd hid ‹_›
    · rename_i hid0
      obtain rfl := hinj i hi ((not_not.mp hid0).trans (hbsp.trans hapic).symm)
      rwa [update_of_ne hp0] at hid
  · rintro ⟨hzero, hplace⟩
    have hapic : cfg.bspApicId = 0 := by simp [SmpConfig.bspApicId, hzero]
    rw [hwoken]
    refine tableOk_of_ids h (hzero.trans hapic.symm) fun k hk => ?_
    rw [hids k hk]
    split
    · rfl
    · rename_i hid
      have hk0 : cfg.coreIDs k = 0 := (not_not.mp hid).trans hzero
      have hsame : ∀ q < cfg.coreCount, cfg.coreIDs q = 0 → q = k := by
        intro q hq hq0
        exact (hinj q hq (hq0.trans (hbsp.trans hapic).symm)).trans (hinj k hk (hk0.trans (hbsp.trans hapic).symm)).symm
      by_cases hfirst : k = 0
      · rw [hk0, hfirst, update_self, hzero]
        rfl
      · rw [update_of_ne hfirst, hk0]
        rcases hplace with h0 | ⟨q, hq, hq0, hmem⟩
        · exact absurd (hsame 0 (by omega) h0).symm hfirst
        · rw [← hsame q hq hq0, hmem]

/-! ## Three machines -/

theorem smpRun_schedule {check : Smp → Bool} (schedule : List (Option Nat)) (hs : SmpRun cfg s0 woken s)
    (h : runSchedule cfg check schedule s = some s') : ∃ woken', SmpRun cfg s0 woken' s' :=
  runSchedule_keeps (P := fun s => ∃ woken, SmpRun cfg s0 woken s) (fun _ _ ⟨_, hs⟩ _ hstep => ⟨_, .bsp hs hstep⟩)
    (fun j _ _ ⟨_, hs⟩ hstep => ⟨_, .ap j hs hstep⟩) schedule ⟨_, hs⟩ h

/-- The end of a schedule on a machine with the ids, with `0xAA` in the memory of `_Cores`: the BSP's place and the ids in the table. -/
def tableRun (cfg : SmpConfig) (schedule : List (Option Nat)) : Option (BspStage × Nat × List Nat) :=
  match bspInit cfg examplePages (fun _ => ⟨0xAA, 0, 0⟩) with
  | .ok (pg, contexts) =>
    (runSchedule cfg (fun _ => true) schedule (smpInit ⟨0, 0, 0, 0, 0, 0⟩ pg contexts)).map fun s => (s.bsp, s.i, tableIds cfg s.contexts)
  | .error _ => none

theorem tableRun_smpRun {schedule : List (Option Nat)} {bsp : BspStage} {ids : List Nat} (h : tableRun cfg schedule = some (bsp, i, ids)) :
    ∃ pg contexts woken s, bspInit cfg examplePages (fun _ => ⟨0xAA, 0, 0⟩) = .ok (pg, contexts) ∧
      SmpRun cfg (smpInit ⟨0, 0, 0, 0, 0, 0⟩ pg contexts) woken s ∧ s.bsp = bsp ∧ s.i = i ∧ tableIds cfg s.contexts = ids := by
  rw [tableRun] at h
  split at h
  · rename_i pg contexts hinit
    obtain ⟨s, hrun, hs⟩ := Option.map_eq_some_iff.mp h
    obtain ⟨woken, hreach⟩ := smpRun_schedule schedule .init hrun
    cases hs
    exact ⟨pg, contexts, woken, s, hinit, hreach, rfl, rfl, rfl⟩
  · cases h

/-- The BSP has the id 0 and is listed first. -/
theorem coreTable_bsp_first : ∃ (s : Smp) (woken : List Nat), TableOk exampleSmp s.contexts woken ∧ s.i = 3 := by
  have hrun : tableRun exampleSmp ([none] ++ bspRound 1 ++ bspRound 2) = some (.next, 3, [0, 1, 2]) := by decide
  obtain ⟨pg, contexts, woken, s, hinit, hreach, hbsp, hi, -⟩ := tableRun_smpRun hrun
  refine ⟨s, woken, (coreTable_iff ⟨by decide, by decide, by decide⟩ hinit hreach hbsp (by rw [hi]; decide)).mpr ⟨rfl, .inl rfl⟩, hi⟩

/-- The BSP has the id 1: its register is `0x1000000`. -/
def secondIsBsp : SmpConfig := { exampleSmp with coreCount := 2, bspID := 0x1000000 }

/-- The BSP has the id 0 and is listed second. -/
def bspListedSecond : SmpConfig := { exampleSmp with coreCount := 2, coreIDs := fun i => 1 - i }

/-- A BSP with the id 1 wakes itself. A BSP that is listed second is not in the table, and does not find itself. -/
theorem coreTable_misses_bsp : (∃ pg contexts s, bspInit secondIsBsp examplePages (fun _ => ⟨0xAA, 0, 0⟩) = .ok (pg, contexts) ∧
      SmpRun secondIsBsp (smpInit ⟨0, 0, 0, 0, 0, 0⟩ pg contexts) [0, 1] s ∧ secondIsBsp.bspApicId = 1) ∧
    ∃ pg contexts woken s, bspInit bspListedSecond examplePages (fun _ => ⟨0xAA, 0, 0⟩) = .ok (pg, contexts) ∧
      SmpRun bspListedSecond (smpInit ⟨0, 0, 0, 0, 0, 0⟩ pg contexts) woken s ∧ s.bsp = .next ∧ s.i = 2 ∧
      tableIds bspListedSecond s.contexts = [1, 0xAA] ∧ currentCPU 2 s.contexts 0 = .error (.panic "Failed finding core with id %u\n") := by
  constructor
  · have hrun : tableRun secondIsBsp (bspRound 0 ++ bspRound 1) = some (.next, 2, [0, 1]) := by decide
    obtain ⟨pg, contexts, woken, s, hinit, hreach, hbsp, hi, -⟩ := tableRun_smpRun hrun
    obtain ⟨hwoken, -⟩ := hreach.done ⟨by decide, by decide, by decide⟩ hbsp (by rw [hi]; decide)
    obtain rfl : woken = [0, 1] := hwoken
    exact ⟨pg, contexts, s, hinit, hreach, by decide⟩
  · have hrun : tableRun bspListedSecond (bspRound 0 ++ [none]) = some (.next, 2, [1, 0xAA]) := by decide
    obtain ⟨pg, contexts, woken, s, hinit, hreach, hbsp, hi, hids⟩ := tableRun_smpRun hrun
    refine ⟨pg, contexts, woken, s, hinit, hreach, hbsp, hi, hids, ?_⟩
    obtain ⟨h0, h1⟩ : (s.contexts 0).id = 1 ∧ (s.contexts 1).id = 0xAA := by
      simpa [tableIds, bspListedSecond, List.range_succ] using hids
    simp [currentCPU, List.range_succ, h0, h1]

end OmegaOS