import OmegaOS.Smp
import OmegaOS.Lemmas.Vmm

/-!
# The handshake of the launch block

One launch block serves every processor. The BSP does not wait for a processor to have read its stack and its context before it
goes on to the next one; in the runs in which that happens in time, every processor starts with its own.
-/

namespace OmegaOS

open Function

variable {cfg : SmpConfig} {s s' : Smp} {j stack : Nat} {pg pg' : Paging} {exclusive : Prop} {check : Smp → Bool}

/-- A processor that was woken and has not read all it needs from the launch block. -/
def ApStage.pending : ApStage → Bool
  | .off | .callEntry _ _ _ | .entered _ _ _ _ => false
  | _ => true

/-- A processor that has not seen `bspStatus` set. -/
def ApStage.waiting : ApStage → Bool
  | .start | .spin => true
  | _ => false

/-- The states that interleavings of the BSP and the processors reach, with every step of the BSP made in a state that is
allowed. -/
inductive SmpReachable (cfg : SmpConfig) (allowed : Smp → Prop) (s₀ : Smp) : Smp → Prop where
  | init : SmpReachable cfg allowed s₀ s₀
  | bsp {s s' : Smp} : SmpReachable cfg allowed s₀ s → allowed s → bspStep cfg s = some s' → SmpReachable cfg allowed s₀ s'
  | ap {s s' : Smp} (j : Nat) : SmpReachable cfg allowed s₀ s → apStep j s = some s' → SmpReachable cfg allowed s₀ s'

/-- The BSP starts to fill the launch block only when the processors woken before have read what is theirs. -/
def FillAllowed (cfg : SmpConfig) (s : Smp) : Prop :=
  s.bsp = .storeContext → ∀ j < cfg.coreCount, j ≠ s.i → (s.aps j).pending = false

instance (cfg : SmpConfig) (s : Smp) : Decidable (FillAllowed cfg s) :=
  inferInstanceAs (Decidable (_ → ∀ j < cfg.coreCount, _))

/-- The BSP allocates a stack only where the allocator finds adjacent frames. -/
def StackAllowed (s : Smp) : Prop := s.bsp = .create → Unbroken s.pg.pm (coreStackSize / pageSize)

/-- Two stacks of `CORE_STACK_SIZE` bytes, given by their ends, do not overlap. -/
def StacksApart (a b : Nat) : Prop := a + coreStackSize ≤ b ∨ b + coreStackSize ≤ a

/-- Every processor in `ap_entry` got there with the context and the stack that the BSP prepared for it; no two processors, the BSP
included, have the same. -/
structure Launched (cfg : SmpConfig) (s : Smp) : Prop where
  own : ∀ j cr3 rsp rdi rip, s.aps j = .entered cr3 rsp rdi rip →
    rip = cfg.apEntry ∧ rdi = cfg.contextAt j ∧ rsp = (s.contexts j).stack
  apart : ∀ j k cr3 rsp rdi rip cr3' rsp' rdi' rip', j ≠ k → s.aps j = .entered cr3 rsp rdi rip →
    s.aps k = .entered cr3' rsp' rdi' rip' → rsp ≠ rsp' ∧ rdi ≠ rdi'
  bsp : ∀ j cr3 rsp rdi rip, s.aps j = .entered cr3 rsp rdi rip → rsp ≠ (s.contexts 0).stack ∧ rdi ≠ cfg.contextAt 0

/-! ## Stacks -/

theorem identityMapPages_kept {pml4 frame : Nat} {attr : PageWord} (is : List Nat)
    (h : identityMapPages pg pml4 frame attr is = .ok pg') : FramesKept pg.pm pg'.pm := by
  induction is generalizing pg with
  | nil =>
    obtain rfl := Except.ok.inj h
    exact .refl pg.pm
  | cons i is ih =>
    obtain ⟨pg1, hmap, hrest⟩ := bind_eq_ok.mp h
    exact (vmmMapPage_kept hmap).trans (ih hrest)

/-- The frames of a stack, from the first one, and its end. -/
structure StackFrames (pm : Pmm) (stack first : Nat) : Prop where
  stack_eq : stack = first * pageSize + coreStackSize
  used : ∀ f, first ≤ f → f < first + coreStackSize / pageSize → pm.used f = true
  lt : first < 2 ^ 20 - 64

/-- A failed allocation changes no bit of the allocator, and a stack is the frames that the allocator gave. -/
theorem createStack_cases (h : createStack cfg pg = .ok (r, pg')) : (r = none ∧ FramesKept pg.pm pg'.pm) ∨
    ∃ frame pm, pmmGetFrames pg.pm (coreStackSize / pageSize) = (frame, pm) ∧ frame ≠ null ∧ r = some (frame + coreStackSize) ∧
      FramesKept pm pg'.pm := by
  rw [createStack] at h
  obtain ⟨⟨kstack, pg2⟩, hpages, hret⟩ := bind_eq_ok.mp h
  obtain ⟨hstack, rfl⟩ := Prod.mk.inj (Except.ok.inj hret)
  rw [vmmCreateIdentityPages] at hpages
  have hkept := pmmGetFrames_kept pg.pm (coreStackSize / pageSize)
  generalize hget : pmmGetFrames pg.pm (coreStackSize / pageSize) = r at hpages hkept
  obtain ⟨frame, pm⟩ := r
  by_cases hf : frame = null
  · simp only [hf, if_true] at hpages
    cases hpages
    exact .inl ⟨hstack.symm, hkept⟩
  · simp only [if_neg hf] at hpages
    obtain ⟨pg1, hmap, hret'⟩ := bind_eq_ok.mp hpages
    obtain ⟨rfl, rfl⟩ := Prod.mk.inj (Except.ok.inj hret')
    rw [if_neg hf] at hstack
    exact .inr ⟨frame, pm, rfl, hf, hstack.symm, identityMapPages_kept _ hmap⟩

theorem createStack_none (h : createStack cfg pg = .ok (none, pg')) : FramesKept pg.pm pg'.pm := by
  obtain ⟨-, hkept⟩ | ⟨frame, pm, -, -, hstack, -⟩ := createStack_cases h
  · exact hkept
  · cases hstack

/-- The frames of a new stack. -/
theorem createStack_frames (hsize : pg.pm.bitmapSize < 2 ^ 14) (h : createStack cfg pg = .ok (some stack, pg')) :
    ∃ first, StackFrames pg'.pm stack first ∧ pg.pm.used first = false ∧
      (Unbroken pg.pm (coreStackSize / pageSize) → ∀ j < coreStackSize / pageSize, pg.pm.used (first + j) = false) ∧
      FramesKept pg.pm pg'.pm := by
  obtain ⟨hstack, -⟩ | ⟨frame, pm, hget, hf, hstack, hmapped⟩ := createStack_cases h
  · cases hstack
  have hcount : 0 < coreStackSize / pageSize := by decide
  have hlt := pmmGetFrames_lt hcount hget hf
  have hkept := pmmGetFrames_kept pg.pm (coreStackSize / pageSize)
  rw [hget] at hkept
  obtain ⟨start, k, first, -, hfirst, hat, rfl, hset⟩ := pmmGetFrames_run hcount hget hf
  have hclear : pg.pm.used first = false := by
    have hgood := hfirst.1.2 0 hcount first (by rwa [add_zero])
    simpa [Pmm.clear] using hgood
  refine ⟨first, ⟨Option.some.inj hstack, fun f h1 h2 => hmapped.used f ?_, ?_⟩, hclear, fun hun j hj => ?_, hkept.trans hmapped⟩
  · rw [hset, decide_eq_true ⟨h1, h2⟩, Bool.or_true]
  · unfold bitmapElementSize pageSize at hlt
    omega
  · have hgrant := (pmmGetFrames_exclusive_iff hcount hget hf).mpr hun
    have hj := hgrant.clearBefore j hj
    rwa [Nat.mul_div_cancel _ (by decide)] at hj

theorem StackFrames.mono {pm pm' : Pmm} {first : Nat} (h : StackFrames pm stack first) (hkept : FramesKept pm pm') :
    StackFrames pm' stack first :=
  ⟨h.stack_eq, fun f h1 h2 => hkept.used f (h.used f h1 h2), h.lt⟩

/-! ## The invariant -/

/-- The current processor was woken and the BSP goes on with it. -/
def BspStage.active : BspStage → Bool
  | .next | .clearAp | .wakeup | .halted => false
  | _ => true

theorem BspStage.ne_next {stage : BspStage} (h : stage.active = true) : stage ≠ .next := by
  rintro rfl
  cases h

/-- The current processor has a stack. -/
def BspStage.hasStack : BspStage → Bool
  | .storeContext | .storePml4 | .storeStackTop | .storeEntry | .signal => true
  | _ => false

/-- The BSP is filling the launch block. -/
def BspStage.filling : BspStage → Bool
  | .storePml4 | .storeStackTop | .storeEntry | .signal => true
  | _ => false

/-- The BSP has prepared a context and a stack for the processor. The BSP's own context is the first one. -/
def Prepared (cfg : SmpConfig) (s : Smp) (j : Nat) : Prop :=
  j = 0 ∨ cfg.coreIDs j ≠ cfg.bspID ∧ (j < s.i ∨ j = s.i ∧ s.bsp.hasStack = true)

/-- The launch block holds what was prepared for the processor. -/
structure Filled (cfg : SmpConfig) (s : Smp) (j : Nat) : Prop where
  prepared : Prepared cfg s j
  context : s.info.context = cfg.contextAt j
  stackTop : s.info.stackTop = (s.contexts j).stack % 2 ^ 32
  apEntry : s.info.apEntry = cfg.apEntry

/-- What holds of a processor at its place in the trampoline. -/
def ApOk (cfg : SmpConfig) (s : Smp) (j : Nat) : ApStage → Prop
  | .off | .start | .spin => True
  | .seen | .loadPml4 | .loadStack _ => Filled cfg s j
  | .ready _ rsp | .loadContext _ rsp => Filled cfg s j ∧ rsp = (s.contexts j).stack % 2 ^ 32
  | .callEntry _ rsp rdi =>
    Prepared cfg s j ∧ s.info.apEntry = cfg.apEntry ∧ rsp = (s.contexts j).stack % 2 ^ 32 ∧ rdi = cfg.contextAt j
  | .entered _ rsp rdi rip =>
    Prepared cfg s j ∧ rip = cfg.apEntry ∧ rsp = (s.contexts j).stack % 2 ^ 32 ∧ rdi = cfg.contextAt j

/-- What holds of the BSP at its place in the loop. -/
structure BspOk (cfg : SmpConfig) (s : Smp) : Prop where
  current : s.bsp ≠ .next → s.i < cfg.coreCount ∧ cfg.coreIDs s.i ≠ cfg.bspID
  cleared : s.bsp ≠ .next → s.info.bspStatus = 0
  waiting : s.bsp.active = true → (s.aps s.i).waiting = true
  alone : s.bsp.filling = true → ∀ j, (s.aps j).pending = true → j = s.i
  context : s.bsp.filling = true → s.info.context = cfg.contextAt s.i
  stackTop : s.bsp = .storeEntry ∨ s.bsp = .signal → s.info.stackTop = (s.contexts s.i).stack % 2 ^ 32
  entry : s.bsp = .signal → s.info.apEntry = cfg.apEntry

/-- The stacks that are prepared, and what the allocator knows of them; `exclusive` says that every allocation was. -/
structure StacksOk (cfg : SmpConfig) (exclusive : Prop) (s : Smp) : Prop where
  size : s.pg.pm.bitmapSize < 2 ^ 14
  frames : ∀ j, Prepared cfg s j → ∃ first, StackFrames s.pg.pm (s.contexts j).stack first
  distinct : ∀ j k, Prepared cfg s j → Prepared cfg s k → j ≠ k → (s.contexts j).stack ≠ (s.contexts k).stack ∧
    (exclusive → StacksApart (s.contexts j).stack (s.contexts k).stack)

/-- The invariant of the handshake. -/
structure SmpInv (cfg : SmpConfig) (exclusive : Prop) (s : Smp) : Prop where
  off : ∀ j, s.i < j ∨ j = s.i ∧ s.bsp.active = false ∧ s.bsp ≠ .halted ∨ cfg.coreIDs j = cfg.bspID ∨ cfg.coreCount ≤ j →
    s.aps j = .off
  bsp : BspOk cfg s
  /-- While `bspStatus` is set, the block is filled for every processor that may still read it. -/
  opened : s.info.bspStatus ≠ 0 → ∀ j, (s.aps j).pending = true → Filled cfg s j
  aps : ∀ j, ApOk cfg s j (s.aps j)
  memory : StacksOk cfg exclusive s

/-- Before the BSP fills the block, little is asked of it. -/
theorem bspOk_of_not_filling (hfill : s.bsp.filling = false)
    (hid : s.bsp ≠ .next → s.i < cfg.coreCount ∧ cfg.coreIDs s.i ≠ cfg.bspID) (hclosed : s.bsp ≠ .next → s.info.bspStatus = 0)
    (hwaiting : s.bsp.active = true → (s.aps s.i).waiting = true) : BspOk cfg s := by
  refine ⟨hid, hclosed, hwaiting, fun hf => ?_, fun hf => ?_, fun hf => ?_, fun hf => ?_⟩
  · simp [hfill] at hf
  · simp [hfill] at hf
  · rcases hf with hf | hf
    · rw [hf] at hfill
      cases hfill
    · rw [hf] at hfill
      cases hfill
  · rw [hf] at hfill
    cases hfill

/-- A step that leaves a processor where it is, and what it has still to read. -/
theorem ApOk.frame (h : ApOk cfg s j (s.aps j)) (haps : s'.aps j = s.aps j)
    (hprepared : Prepared cfg s j → Prepared cfg s' j) (hctx : Prepared cfg s j → s'.contexts j = s.contexts j)
    (hentry : s.info.apEntry = cfg.apEntry → s'.info.apEntry = cfg.apEntry) (hinfo : (s.aps j).pending = true → (s.aps j).waiting = false →
      s'.info.context = s.info.context ∧ s'.info.stackTop = s.info.stackTop) : ApOk cfg s' j (s'.aps j) := by
  have hfilled : (s.aps j).pending = true → (s.aps j).waiting = false → Filled cfg s j → Filled cfg s' j := by
    intro hp hw hf
    obtain ⟨hc, hs⟩ := hinfo hp hw
    exact ⟨hprepared hf.prepared, hc.trans hf.context, by rw [hs, hctx hf.prepared]; exact hf.stackTop, hentry hf.apEntry⟩
  rw [haps]
  generalize s.aps j = stage at h hfilled
  cases stage with
  | off | start | spin => trivial
  | seen | loadPml4 | loadStack => exact hfilled rfl rfl h
  | ready | loadContext =>
    refine ⟨hfilled rfl rfl h.1, ?_⟩
    rw [hctx h.1.prepared]
    exact h.2
  | callEntry =>
    refine ⟨hprepared h.1, hentry h.2.1, ?_⟩
    rw [hctx h.1]
    exact h.2.2
  | entered =>
    refine ⟨hprepared h.1, h.2.1, ?_⟩
    rw [hctx h.1]
    exact h.2.2

/-! ## Steps of a processor -/

theorem Smp.setStatus_self (s : Smp) (j apStatus : Nat) (stage : ApStage) : (s.setStatus j apStatus stage).aps j = stage := by
  simp [Smp.setStatus, Smp.setAp]

theorem Smp.setStatus_of_ne (s : Smp) (apStatus : Nat) (stage : ApStage) (h : k ≠ j) : (s.setStatus j apStatus stage).aps k = s.aps k := by
  simp [Smp.setStatus, Smp.setAp, update_of_ne h]

/-- A processor goes on in the trampoline: it does not go back to reading the block, it does not leave the spin before `bspStatus` is
set, and what holds at its new place holds. -/
theorem SmpInv.setStatus (h : SmpInv cfg exclusive s) {old stage : ApStage} (hold : s.aps j = old) (apStatus : Nat)
    (hoff : old ≠ .off) (hpending : stage.pending = true → old.pending = true)
    (hwaiting : s.info.bspStatus = 0 → old.waiting = true → stage.waiting = true)
    (hok : ApOk cfg (s.setStatus j apStatus stage) j stage) : SmpInv cfg exclusive (s.setStatus j apStatus stage) := by
  subst hold
  have hself := s.setStatus_self j apStatus stage
  have hother : ∀ k, k ≠ j → (s.setStatus j apStatus stage).aps k = s.aps k := fun k hk => s.setStatus_of_ne apStatus stage hk
  have hpend : ∀ k, ((s.setStatus j apStatus stage).aps k).pending = true → (s.aps k).pending = true := by
    intro k hk
    by_cases hkj : k = j
    · subst hkj
      rw [hself] at hk
      exact hpending hk
    · rwa [hother k hkj] at hk
  refine ⟨fun k hk => ?_, ⟨h.bsp.current, h.bsp.cleared, fun hact => ?_, fun hfill k hk => h.bsp.alone hfill k (hpend k hk),
    h.bsp.context, h.bsp.stackTop, h.bsp.entry⟩, fun hopen k hk => ?_, fun k => ?_, ⟨h.memory.size, h.memory.frames,
    h.memory.distinct⟩⟩
  · have hk' := h.off k hk
    by_cases hkj : k = j
    · subst hkj
      exact absurd hk' hoff
    · rwa [hother k hkj]
  · have hw := h.bsp.waiting hact
    show ((s.setStatus j apStatus stage).aps s.i).waiting = true
    by_cases hkj : s.i = j
    · rw [hkj, hself]
      exact hwaiting (h.bsp.cleared (BspStage.ne_next hact)) (hkj ▸ hw)
    · rwa [hother s.i hkj]
  · have hf := h.opened hopen k (hpend k hk)
    exact ⟨hf.prepared, hf.context, hf.stackTop, hf.apEntry⟩
  · by_cases hkj : k = j
    · subst hkj
      rwa [hself]
    · exact (h.aps k).frame (hother k hkj) (fun hp => hp) (fun _ => rfl) (fun he => he) fun _ _ => ⟨rfl, rfl⟩

/-- The block does not change under a processor's own step but for `apStatus`. -/
theorem Filled.setStatus (h : Filled cfg s j) (k apStatus : Nat) (stage : ApStage) :
    Filled cfg (s.setStatus k apStatus stage) j := ⟨h.prepared, h.context, h.stackTop, h.apEntry⟩

/-- A step of a processor keeps the invariant. -/
theorem apStep_inv (h : SmpInv cfg exclusive s) (hstep : apStep j s = some s') : SmpInv cfg exclusive s' := by
  have hj := h.aps j
  rw [apStep] at hstep
  generalize hstage : s.aps j = stage at hstep hj
  cases stage with
  | off | entered => cases hstep
  | start =>
    cases hstep
    exact h.setStatus hstage 1 (by decide) (fun _ => rfl) (fun _ _ => rfl) trivial
  | spin =>
    by_cases hb : s.info.bspStatus = 0
    · grind
    · simp only [if_neg hb] at hstep
      cases hstep
      have hf := h.opened hb j (by rw [hstage]; rfl)
      exact h.setStatus hstage s.info.apStatus (by decide) (fun _ => rfl) (fun h0 => absurd h0 hb) (hf.setStatus j _ .seen)
  | seen =>
    cases hstep
    exact h.setStatus hstage 0 (by decide) (fun _ => rfl) (fun _ hw => by cases hw) (hj.setStatus j _ .loadPml4)
  | loadPml4 =>
    cases hstep
    exact h.setStatus hstage s.info.apStatus (by decide) (fun _ => rfl) (fun _ hw => by cases hw) (hj.setStatus j _ (.loadStack _))
  | loadStack cr3 =>
    cases hstep
    exact h.setStatus hstage s.info.apStatus (by simp) (fun _ => rfl) (fun _ hw => by cases hw)
      ⟨hj.setStatus j _ (.ready cr3 _), hj.stackTop⟩
  | ready cr3 rsp =>
    cases hstep
    exact h.setStatus hstage 1 (by simp) (fun _ => rfl) (fun _ hw => by cases hw) ⟨hj.1.setStatus j _ (.loadContext cr3 rsp), hj.2⟩
  | loadContext cr3 rsp =>
    cases hstep
    exact h.setStatus hstage s.info.apStatus (by simp) (fun hp => by cases hp) (fun _ hw => by cases hw)
      ⟨hj.1.prepared, hj.1.apEntry, hj.2, hj.1.context⟩
  | callEntry cr3 rsp rdi =>
    cases hstep
    exact h.setStatus hstage s.info.apStatus (by simp) (fun hp => by cases hp) (fun _ hw => by cases hw) ⟨hj.1, hj.2.1, hj.2.2⟩

/-! ## Steps of the BSP -/

/-- Every step of the BSP. -/
inductive BspMove (cfg : SmpConfig) (s : Smp) : Smp → Prop where
  | skip (hb : s.bsp = .next) (hlt : s.i < cfg.coreCount) (hid : cfg.coreIDs s.i = cfg.bspID) : BspMove cfg s { s with i := s.i + 1 }
  | enter (hb : s.bsp = .next) (hlt : s.i < cfg.coreCount) (hid : cfg.coreIDs s.i ≠ cfg.bspID) :
      BspMove cfg s { s with info := { s.info with bspStatus := 0 }, bsp := .clearAp }
  | clearAp (hb : s.bsp = .clearAp) : BspMove cfg s { s with info := { s.info with apStatus := 0 }, bsp := .wakeup }
  | wakeup (hb : s.bsp = .wakeup) : BspMove cfg s { s with aps := update s.aps s.i .start, bsp := .poll apTimeoutRetry }
  | poll {retries : Nat} (hb : s.bsp = .poll retries) {stage : BspStage} (hstage : stage = .check ∨ ∃ left, stage = .poll left) :
      BspMove cfg s { s with bsp := stage }
  | check (hb : s.bsp = .check) : BspMove cfg s { s with bsp := .create }
  | create (hb : s.bsp = .create) {stack : Nat} {pg : Paging} (hcreate : createStack cfg s.pg = .ok (some stack, pg)) :
      BspMove cfg s { s with
        contexts := update s.contexts s.i { id := cfg.coreIDs s.i % 2 ^ 8, stack := stack, currentProcess := null }
        pg := pg
        bsp := .storeContext }
  | halt (hb : s.bsp = .check ∨ s.bsp = .create) {pg : Paging} (hpg : pg = s.pg ∨ createStack cfg s.pg = .ok (none, pg)) :
      BspMove cfg s { s with pg := pg, bsp := .halted }
  | storeContext (hb : s.bsp = .storeContext) :
      BspMove cfg s { s with info := { s.info with context := cfg.contextAt s.i }, bsp := .storePml4 }
  | storePml4 (hb : s.bsp = .storePml4) :
      BspMove cfg s { s with info := { s.info with pml4 := cfg.kernelPml4 % 2 ^ 32 }, bsp := .storeStackTop }
  | storeStackTop (hb : s.bsp = .storeStackTop) :
      BspMove cfg s { s with info := { s.info with stackTop := (s.contexts s.i).stack % 2 ^ 32 }, bsp := .storeEntry }
  | storeEntry (hb : s.bsp = .storeEntry) : BspMove cfg s { s with info := { s.info with apEntry := cfg.apEntry }, bsp := .signal }
  | signal (hb : s.bsp = .signal) : BspMove cfg s { s with info := { s.info with bspStatus := 1 }, i := s.i + 1, bsp := .next }

theorem bspStep_move (h : bspStep cfg s = some s') : BspMove cfg s s' := by
  rw [bspStep] at h
  split at h
  · rename_i hb
    split at h
    · split at h <;> cases h
      · simpa only [hb] using BspMove.skip hb ‹_› ‹_›
      · exact .enter hb ‹_› ‹_›
    · cases h
  · cases h
    exact .clearAp ‹_›
  · cases h
    exact .wakeup ‹_›
  · cases h
    exact .poll ‹_› (.inl rfl)
  · rename_i retries hb
    split at h <;> cases h
    · exact .poll hb (.inl rfl)
    · exact .poll hb (.inr ⟨retries, rfl⟩)
  · rename_i hb
    split at h <;> cases h
    · exact .halt (.inl hb) (.inl rfl)
    · exact .check hb
  · rename_i hb
    split at h <;> cases h
    · exact .create hb ‹_›
    · exact .halt (.inr hb) (.inr ‹_›)
    · exact .halt (.inr hb) (.inl rfl)
  · cases h
    exact .storeContext ‹_›
  · cases h
    exact .storePml4 ‹_›
  · cases h
    exact .storeStackTop ‹_›
  · cases h
    exact .storeEntry ‹_›
  · cases h
    exact .signal ‹_›
  · cases h

section

variable (h : SmpInv cfg exclusive s)

include h

/-- A step of the BSP that does not touch the processors or the stacks. -/
theorem SmpInv.frame (haps : s'.aps = s.aps) (hcontexts : s'.contexts = s.contexts)
    (hkept : FramesKept s.pg.pm s'.pg.pm) (hprepared : ∀ j, Prepared cfg s' j ↔ Prepared cfg s j)
    (hoff : ∀ j, s'.i < j ∨ j = s'.i ∧ s'.bsp.active = false ∧ s'.bsp ≠ .halted →
      s.i < j ∨ j = s.i ∧ s.bsp.active = false ∧ s.bsp ≠ .halted)
    (hbsp : BspOk cfg s') (hopened : s'.info.bspStatus ≠ 0 → ∀ j, (s.aps j).pending = true → Filled cfg s' j)
    (hentry : s.info.apEntry = cfg.apEntry → s'.info.apEntry = cfg.apEntry)
    (hinfo : ∀ j, (s.aps j).pending = true → (s.aps j).waiting = false →
      s'.info.context = s.info.context ∧ s'.info.stackTop = s.info.stackTop) : SmpInv cfg exclusive s' := by
  refine ⟨fun j hj => ?_, hbsp, fun hopen j hj => hopened hopen j (haps ▸ hj), fun j => ?_, hkept.size.trans_lt h.memory.size,
    fun j hj => ?_, fun j k hj hk => ?_⟩
  · rw [haps]
    exact h.off j (or_assoc.mp ((or_assoc.mpr hj).imp_left (hoff j)))
  · exact (h.aps j).frame (congrFun haps j) (hprepared j).mpr (fun _ => congrFun hcontexts j) hentry (hinfo j)
  · obtain ⟨first, hfirst⟩ := h.memory.frames j ((hprepared j).mp hj)
    rw [hcontexts]
    exact ⟨first, hfirst.mono hkept⟩
  · rw [hcontexts]
    exact h.memory.distinct j k ((hprepared j).mp hj) ((hprepared k).mp hk)

theorem SmpInv.stage (info : CoreLaunchInfo) (bsp : BspStage) (hstack : bsp.hasStack = s.bsp.hasStack)
    (hoff : bsp.active = false ∧ bsp ≠ .halted → s.bsp.active = false ∧ s.bsp ≠ .halted)
    (hbsp : BspOk cfg { s with info := info, bsp := bsp }) (hclosed : info.bspStatus = 0)
    (hentry : s.info.apEntry = cfg.apEntry → info.apEntry = cfg.apEntry)
    (hinfo : ∀ j, (s.aps j).pending = true → (s.aps j).waiting = false → info.context = s.info.context ∧ info.stackTop = s.info.stackTop) :
    SmpInv cfg exclusive { s with info := info, bsp := bsp } := by
  refine h.frame rfl rfl (.refl _) (fun j => ?_) (fun j hj => hj.imp_right (And.imp_right hoff)) hbsp
    (fun hopen => absurd hclosed hopen) hentry hinfo
  show (_ ∨ _ ∧ (_ ∨ _ ∧ bsp.hasStack = true)) ↔ _
  rw [hstack]
  rfl

/-- The processors that were not woken stay as they are while another is. -/
theorem SmpInv.wakeup (hw : s.bsp = .wakeup) (retries : Nat) :
    SmpInv cfg exclusive { s with aps := update s.aps s.i .start, bsp := .poll retries } := by
  have hne : s.bsp ≠ .next := by simp [hw]
  have hid := h.bsp.current hne
  have hclosed := h.bsp.cleared hne
  have hprepared : ∀ j, Prepared cfg { s with aps := update s.aps s.i .start, bsp := .poll retries } j ↔ Prepared cfg s j := by
    intro j
    show (_ ∨ _ ∧ (_ ∨ _ ∧ (BspStage.poll retries).hasStack = true)) ↔ (_ ∨ _ ∧ (_ ∨ _ ∧ s.bsp.hasStack = true))
    rw [hw]
    rfl
  refine ⟨fun j hj => ?_, bspOk_of_not_filling rfl (fun _ => hid) (fun _ => hclosed) fun _ => ?_,
    fun hopen => absurd hclosed hopen, fun j => ?_, h.memory.size, fun j hj => h.memory.frames j ((hprepared j).mp hj),
    fun j k hj hk => h.memory.distinct j k ((hprepared j).mp hj) ((hprepared k).mp hk)⟩
  · have hji : j ≠ s.i := by
      rintro rfl
      rcases hj with hj | ⟨-, hact, -⟩ | hj | hj
      · exact absurd hj (lt_irrefl _)
      · cases hact
      · exact hid.2 hj
      · exact absurd hid.1 (not_lt.mpr hj)
    show update s.aps s.i .start j = .off
    rw [update_of_ne hji]
    refine h.off j (hj.imp_right fun hj => ?_)
    exact hj.imp_left fun hj => absurd hj.1 hji
  · show (update s.aps s.i ApStage.start s.i).waiting = true
    rw [update_self]
    rfl
  · by_cases hji : j = s.i
    · subst hji
      simp [ApOk]
    · exact (h.aps j).frame (update_of_ne hji _ _) (hprepared j).mpr (fun _ => rfl) id fun _ _ => ⟨rfl, rfl⟩

theorem SmpInv.halt (hne : s.bsp ≠ .next) (hstack : s.bsp.hasStack = false) (pg : Paging)
    (hkept : FramesKept s.pg.pm pg.pm) : SmpInv cfg exclusive { s with pg := pg, bsp := .halted } := by
  have hclosed := h.bsp.cleared hne
  refine h.frame rfl rfl hkept (fun j => ?_) (fun j hj => hj.imp_right fun hj => absurd rfl hj.2.2) ?_
    (fun hopen => absurd hclosed hopen) id fun _ _ _ => ⟨rfl, rfl⟩
  · show (_ ∨ _ ∧ (_ ∨ _ ∧ BspStage.halted.hasStack = true)) ↔ (_ ∨ _ ∧ (_ ∨ _ ∧ s.bsp.hasStack = true))
    rw [hstack]
    rfl
  · exact bspOk_of_not_filling rfl (fun _ => h.bsp.current hne) (fun _ => hclosed) fun hact => by cases hact

end

/-- The processor after the current one is not the current one, nor before it. -/
theorem lt_of_next {p : Prop} (h : i + 1 < j ∨ j = i + 1 ∧ p) : i < j :=
  h.elim Nat.lt_of_succ_lt fun h => h.1 ▸ Nat.lt_succ_self i

section

variable (h : SmpInv cfg exclusive s)

include h

theorem SmpInv.skip (hb : s.bsp = .next) (hid : cfg.coreIDs s.i = cfg.bspID) : SmpInv cfg exclusive { s with i := s.i + 1 } := by
  have hprepared : ∀ j, Prepared cfg { s with i := s.i + 1 } j ↔ Prepared cfg s j := by
    intro j
    rw [hb]
    refine or_congr_right (and_congr_right fun hj => ?_)
    have hne : j ≠ s.i := fun e => hj (e ▸ hid)
    simp only [BspStage.hasStack, Bool.false_eq_true, and_false, or_false]
    omega
  refine h.frame rfl rfl (.refl _) hprepared (fun j hj => .inl (lt_of_next hj)) ?_ (fun hopen j hj => ?_) id
    fun _ _ _ => ⟨rfl, rfl⟩
  · refine bspOk_of_not_filling (congrArg BspStage.filling hb) (fun hne => absurd hb hne) (fun hne => absurd hb hne) fun hact => ?_
    rw [show s.bsp = .next from hb] at hact
    cases hact
  · have hf := h.opened hopen j hj
    exact ⟨(hprepared j).mpr hf.prepared, hf.context, hf.stackTop, hf.apEntry⟩

/-- The step that creates a stack keeps the invariant. -/
theorem SmpInv.create (hbsp : cfg.coreIDs 0 = cfg.bspID) (hb : s.bsp = .create)
    (hex : exclusive → Unbroken s.pg.pm (coreStackSize / pageSize))
    (hcreate : createStack cfg s.pg = .ok (some stack, pg)) (ctx : CoreContext) (hctx : ctx.stack = stack) :
    SmpInv cfg exclusive { s with contexts := update s.contexts s.i ctx, pg := pg, bsp := .storeContext } := by
  have hne : s.bsp ≠ .next := by simp [hb]
  have hid := h.bsp.current hne
  have hclosed := h.bsp.cleared hne
  have hwaiting := h.bsp.waiting (by rw [hb]; rfl)
  obtain ⟨first, hframes, hclear, hclears, hkept⟩ := createStack_frames h.memory.size hcreate
  -- the other prepared processors keep their contexts
  have hold : ∀ j, Prepared cfg s j → j ≠ s.i := by
    rintro j hj rfl
    rcases hj with hj | ⟨-, hj | ⟨-, hj⟩⟩
    · exact hid.2 (hj ▸ hbsp)
    · exact absurd hj (lt_irrefl _)
    · rw [hb] at hj
      cases hj
  have hprepared : ∀ j, Prepared cfg { s with contexts := update s.contexts s.i ctx, pg := pg, bsp := .storeContext } j →
      j = s.i ∨ Prepared cfg s j := by
    rintro j (hj | ⟨hj, hlt | ⟨rfl, -⟩⟩)
    · exact .inr (.inl hj)
    · exact .inr (.inr ⟨hj, .inl hlt⟩)
    · exact .inl rfl
  have hkeep : ∀ j, Prepared cfg s j → update s.contexts s.i ctx j = s.contexts j := fun j hj => update_of_ne (hold j hj) _ _
  have hself : (update s.contexts s.i ctx s.i).stack = stack := by rw [update_self, hctx]
  have hnew : ∀ j, Prepared cfg s j → stack ≠ (s.contexts j).stack ∧ (exclusive → StacksApart stack (s.contexts j).stack) := by
    intro j hj
    obtain ⟨first', hframes'⟩ := h.memory.frames j hj
    have hcount : coreStackSize / pageSize = 16 := rfl
    rw [hframes.stack_eq, hframes'.stack_eq]
    refine ⟨fun he => ?_, fun hexcl => ?_⟩
    · have hu := hframes'.used first (by unfold pageSize at he; omega) (by unfold pageSize at *; omega)
      simp [hclear] at hu
    · by_contra hover
      rw [StacksApart, not_or] at hover
      -- the later of the two first frames is in both stacks
      obtain ⟨j, hj, hin⟩ : ∃ j < coreStackSize / pageSize, first' ≤ first + j ∧ first + j < first' + coreStackSize / pageSize := by
        refine ⟨first' - first, ?_⟩
        unfold coreStackSize pageSize at *
        omega
      have hu := hframes'.used (first + j) hin.1 hin.2
      simp [hclears (hex hexcl) j hj] at hu
  refine ⟨fun j hj => h.off j ?_, bspOk_of_not_filling rfl (fun _ => hid) (fun _ => hclosed) fun _ => hwaiting,
    fun hopen => absurd hclosed hopen, fun j => ?_, hkept.size.trans_lt h.memory.size, fun j hj => ?_, fun j k hj hk hjk => ?_⟩
  · rcases hj with hj | ⟨-, hj, -⟩ | hj
    · exact .inl hj
    · cases hj
    · exact .inr (.inr hj)
  · refine (h.aps j).frame rfl (fun hj => ?_) (hkeep j) id fun _ _ => ⟨rfl, rfl⟩
    rcases hj with hj | ⟨hj, hlt | ⟨rfl, -⟩⟩
    · exact .inl hj
    · exact .inr ⟨hj, .inl hlt⟩
    · exact .inr ⟨hj, .inr ⟨rfl, rfl⟩⟩
  · rcases hprepared j hj with rfl | hj
    · refine ⟨first, ?_⟩
      rwa [hself]
    · obtain ⟨first', hframes'⟩ := h.memory.frames j hj
      refine ⟨first', ?_⟩
      show StackFrames pg.pm (update s.contexts s.i ctx j).stack first'
      rw [hkeep j hj]
      exact hframes'.mono hkept
  · show (update s.contexts s.i ctx j).stack ≠ (update s.contexts s.i ctx k).stack ∧
      (exclusive → StacksApart (update s.contexts s.i ctx j).stack (update s.contexts s.i ctx k).stack)
    rcases hprepared j hj with rfl | hj
    · rcases hprepared k hk with rfl | hk
      · exact absurd rfl hjk
      · rw [hself, hkeep k hk]
        exact hnew k hk
    · rcases hprepared k hk with rfl | hk
      · rw [hself, hkeep j hj]
        exact ⟨(hnew j hj).1.symm, fun hexcl => ((hnew j hj).2 hexcl).symm⟩
      · rw [hkeep j hj, hkeep k hk]
        exact h.memory.distinct j k hj hk hjk

/-- The BSP opens the block for the current processor, the only one that may still read it. -/
theorem SmpInv.signal (hb : s.bsp = .signal) :
    SmpInv cfg exclusive { s with info := { s.info with bspStatus := 1 }, i := s.i + 1, bsp := .next } := by
  have hid := h.bsp.current (by simp [hb])
  have hfill : s.bsp.filling = true := by rw [hb]; rfl
  have hprepared : ∀ j, Prepared cfg { s with info := { s.info with bspStatus := 1 }, i := s.i + 1, bsp := .next } j ↔
      Prepared cfg s j := by
    intro j
    show (_ ∨ _ ∧ (j < s.i + 1 ∨ j = s.i + 1 ∧ BspStage.next.hasStack = true)) ↔ (_ ∨ _ ∧ (j < s.i ∨ j = s.i ∧ s.bsp.hasStack = true))
    rw [hb]
    simp only [BspStage.hasStack, Bool.false_eq_true, and_false, or_false, and_true]
    rw [Nat.lt_succ_iff, Nat.le_iff_lt_or_eq]
  refine h.frame rfl rfl (.refl _) hprepared (fun j hj => .inl (lt_of_next hj)) ?_ (fun _ j hj => ?_) id fun _ _ _ => ⟨rfl, rfl⟩
  · exact bspOk_of_not_filling rfl (fun hne => absurd rfl hne) (fun hne => absurd rfl hne) fun hact => by cases hact
  · obtain rfl := h.bsp.alone hfill j hj
    exact ⟨.inr ⟨hid.2, .inl (Nat.lt_succ_self _)⟩, h.bsp.context hfill, h.bsp.stackTop (.inr hb), h.bsp.entry hb⟩

/-- No processor reads the block while the BSP fills it: the current one still waits, and no other is pending. -/
theorem SmpInv.unread (hact : s.bsp.active = true) (halone : ∀ j, (s.aps j).pending = true → j = s.i) (hp : (s.aps j).pending = true)
    (hw : (s.aps j).waiting = false) : False := by
  obtain rfl := halone j hp
  simp [h.bsp.waiting hact] at hw

/-- The BSP goes on with the processor that it has woken, before it fills the block. -/
theorem SmpInv.move {old stage : BspStage} (hb : s.bsp = old) (hact : old.active = true) (hstack : old.hasStack = false)
    (hstack' : stage.hasStack = false) (hact' : stage.active = true) (hfill : stage.filling = false) :
    SmpInv cfg exclusive { s with bsp := stage } := by
  subst hb
  have hne := BspStage.ne_next hact
  refine h.stage s.info stage (hstack'.trans hstack.symm) (fun hh => ?_) ?_ (h.bsp.cleared hne) id fun _ _ _ => ⟨rfl, rfl⟩
  · rw [hact'] at hh
    cases hh.1
  · exact bspOk_of_not_filling hfill (fun _ => h.bsp.current hne) (fun _ => h.bsp.cleared hne) fun _ => h.bsp.waiting hact

/-- The BSP fills a part of the block, or has just begun to: what it stored before is still there. -/
theorem SmpInv.store {old stage : BspStage} (hb : s.bsp = old) (hstack : old.hasStack = true) (hact : old.active = true)
    (halone : ∀ j, (s.aps j).pending = true → j = s.i) (info : CoreLaunchInfo) (hstack' : stage.hasStack = true)
    (hact' : stage.active = true) (hstatus : info.bspStatus = s.info.bspStatus) (hcontext : info.context = cfg.contextAt s.i)
    (hstackTop : stage = .storeEntry ∨ stage = .signal → info.stackTop = (s.contexts s.i).stack % 2 ^ 32)
    (hentry : stage = .signal → info.apEntry = cfg.apEntry) (hkept : s.info.apEntry = cfg.apEntry → info.apEntry = cfg.apEntry) :
    SmpInv cfg exclusive { s with info := info, bsp := stage } := by
  subst hb
  have hne := BspStage.ne_next hact
  have hclosed := h.bsp.cleared hne
  refine h.stage info stage (hstack'.trans hstack.symm) (fun hh => ?_) ?_ (hstatus.trans hclosed) hkept
    fun _ hp hw => (h.unread hact halone hp hw).elim
  · rw [hact'] at hh
    cases hh.1
  · exact ⟨fun _ => h.bsp.current hne, fun _ => hstatus.trans hclosed, fun _ => h.bsp.waiting hact, fun _ => halone, fun _ => hcontext,
      hstackTop, hentry⟩

/-- When the block may be filled, no other processor is pending. -/
theorem SmpInv.alone (hb : s.bsp = .storeContext) (hfill : FillAllowed cfg s) (hp : (s.aps j).pending = true) : j = s.i := by
  by_contra hj
  by_cases hlt : j < cfg.coreCount
  · simp [hfill hb j hlt hj] at hp
  · rw [h.off j (.inr (.inr (.inr (not_lt.mp hlt))))] at hp
    cases hp

/-- A step of the BSP keeps the invariant, when the block is not filled under a processor that still reads it. -/
theorem bspStep_inv (hbsp : cfg.coreIDs 0 = cfg.bspID) (hfill : FillAllowed cfg s)
    (hex : exclusive → StackAllowed s) (hstep : bspStep cfg s = some s') : SmpInv cfg exclusive s' := by
  cases bspStep_move hstep with
  | skip hb _ hid => exact h.skip hb hid
  | enter hb hlt hid =>
    refine h.stage { s.info with bspStatus := 0 } .clearAp (by rw [hb]; rfl) (fun _ => by rw [hb]; exact ⟨rfl, by simp⟩) ?_ rfl id
      fun _ _ _ => ⟨rfl, rfl⟩
    exact bspOk_of_not_filling rfl (fun _ => ⟨hlt, hid⟩) (fun _ => rfl) fun hact => by cases hact
  | clearAp hb =>
    have hne : s.bsp ≠ .next := by simp [hb]
    refine h.stage { s.info with apStatus := 0 } .wakeup (by rw [hb]; rfl) (fun _ => by rw [hb]; exact ⟨rfl, by simp⟩) ?_
      (h.bsp.cleared hne) id fun _ _ _ => ⟨rfl, rfl⟩
    exact bspOk_of_not_filling rfl (fun _ => h.bsp.current hne) (fun _ => h.bsp.cleared hne) fun hact => by cases hact
  | wakeup hb => exact h.wakeup hb apTimeoutRetry
  | poll hb hstage =>
    rcases hstage with rfl | ⟨left, rfl⟩ <;> exact h.move hb rfl rfl rfl rfl rfl
  | check hb => exact h.move hb rfl rfl rfl rfl rfl
  | create hb hcreate => exact h.create hbsp hb (fun he => hex he hb) hcreate _ rfl
  | halt hb hpg =>
    have hne : s.bsp ≠ .next := by rcases hb with hb | hb <;> simp [hb]
    have hstack : s.bsp.hasStack = false := by rcases hb with hb | hb <;> rw [hb] <;> rfl
    rcases hpg with rfl | hnone
    · exact h.halt hne hstack s.pg (.refl _)
    · exact h.halt hne hstack _ (createStack_none hnone)
  | storeContext hb =>
    exact h.store hb rfl rfl (fun j => h.alone hb hfill) _ rfl rfl rfl rfl (by simp) (by simp) id
  | storePml4 hb =>
    have hf : s.bsp.filling = true := by rw [hb]; rfl
    exact h.store hb rfl rfl (h.bsp.alone hf) _ rfl rfl rfl (h.bsp.context hf) (by simp) (by simp) id
  | storeStackTop hb =>
    have hf : s.bsp.filling = true := by rw [hb]; rfl
    exact h.store hb rfl rfl (h.bsp.alone hf) _ rfl rfl rfl (h.bsp.context hf) (fun _ => rfl) (by simp) id
  | storeEntry hb =>
    have hf : s.bsp.filling = true := by rw [hb]; rfl
    exact h.store hb rfl rfl (h.bsp.alone hf) _ rfl rfl rfl (h.bsp.context hf)
      (fun _ => h.bsp.stackTop (.inl hb)) (fun _ => rfl) fun _ => rfl
  | signal hb => exact h.signal hb

end

/-! ## Whole runs -/

section

variable {allowed : Smp → Prop} {pg0 : Paging} {contexts0 contexts : Nat → CoreContext} {info : CoreLaunchInfo}

/-- The loop starts with the BSP's own stack prepared and no other processor awake. -/
theorem smpInit_inv (exclusive : Prop) (hmem : pg0.pm.bitmapSize < 2 ^ 14)
    (hinit : bspInit cfg pg0 contexts0 = .ok (pg, contexts)) : SmpInv cfg exclusive (smpInit info pg contexts) := by
  rw [bspInit] at hinit
  obtain ⟨⟨stack, pg1⟩, hcreate, hret⟩ := bind_eq_ok.mp hinit
  cases stack with
  | none => cases hret
  | some stack =>
    obtain ⟨rfl, rfl⟩ := Prod.mk.inj (Except.ok.inj hret)
    obtain ⟨first, hframes, -, -, hkept⟩ := createStack_frames hmem hcreate
    have hprepared : ∀ (contexts : Nat → CoreContext) j, Prepared cfg (smpInit info pg1 contexts) j → j = 0 := by
      rintro contexts j (hj | ⟨-, hj | ⟨-, hj⟩⟩)
      · exact hj
      · exact absurd hj (Nat.not_lt_zero j)
      · cases hj
    refine ⟨fun _ _ => rfl, bspOk_of_not_filling rfl (fun hne => absurd rfl hne) (fun hne => absurd rfl hne)
      fun hact => (by cases hact), fun _ j hj => (by cases hj), fun j => trivial, hkept.size.trans_lt hmem, fun j hj => ⟨first, ?_⟩,
      fun j k hj hk hjk => ?_⟩
    · obtain rfl := hprepared _ j hj
      show StackFrames pg1.pm (update contexts0 0 _ 0).stack first
      rwa [update_self]
    · exact absurd ((hprepared _ j hj).trans (hprepared _ k hk).symm) hjk

theorem smpReachable_inv (hbsp : cfg.coreIDs 0 = cfg.bspID) (hmem : pg0.pm.bitmapSize < 2 ^ 14)
    (hinit : bspInit cfg pg0 contexts0 = .ok (pg, contexts)) (hfill : ∀ s, allowed s → FillAllowed cfg s)
    (h : SmpReachable cfg allowed (smpInit info pg contexts) s) : SmpInv cfg (∀ s, allowed s → StackAllowed s) s := by
  induction h with
  | init => exact smpInit_inv _ hmem hinit
  | bsp _ hallowed hstep ih => exact bspStep_inv ih hbsp (hfill _ hallowed) (fun hex => hex _ hallowed) hstep
  | ap _ _ hstep ih => exact apStep_inv ih hstep

end

theorem SmpInv.entered (h : SmpInv cfg exclusive s) {cr3 rsp rdi rip : Nat} (hj : s.aps j = .entered cr3 rsp rdi rip) :
    Prepared cfg s j ∧ rip = cfg.apEntry ∧ rsp = (s.contexts j).stack ∧ rdi = cfg.contextAt j := by
  have hok := h.aps j
  rw [hj] at hok
  obtain ⟨hprepared, hrip, hrsp, hrdi⟩ := hok
  obtain ⟨first, hframes⟩ := h.memory.frames j hprepared
  -- the stack ends below 4 GiB, so the cast to 32 bits keeps it
  have hlt : (s.contexts j).stack < 2 ^ 32 := by
    have hfirst := hframes.lt
    rw [hframes.stack_eq]
    unfold coreStackSize pageSize
    omega
  exact ⟨hprepared, hrip, hrsp.trans (Nat.mod_eq_of_lt hlt), hrdi⟩

theorem contextAt_ne (cfg : SmpConfig) (h : j ≠ k) : cfg.contextAt j ≠ cfg.contextAt k := by
  unfold SmpConfig.contextAt coreContextSize
  omega

/-- The handshake. With the BSP first in the list of processors and all memory below 4 GiB, in every interleaving in which the BSP
fills the launch block only after the processors woken before have read theirs, every processor enters `ap_entry` with its own
context and stack. When the allocations of the stacks meet their condition too, no two stacks overlap. -/
theorem smpReachable_launched {cfg : SmpConfig} {allowed : Smp → Prop} {pg0 pg : Paging} {contexts0 contexts : Nat → CoreContext}
    {info : CoreLaunchInfo} {s : Smp} (hbsp : cfg.coreIDs 0 = cfg.bspID) (hmem : pg0.pm.bitmapSize < 2 ^ 14)
    (hinit : bspInit cfg pg0 contexts0 = .ok (pg, contexts)) (hfill : ∀ s, allowed s → FillAllowed cfg s)
    (h : SmpReachable cfg allowed (smpInit info pg contexts) s) : Launched cfg s ∧ ((∀ s, allowed s → StackAllowed s) →
      ∀ j cr3 rsp rdi rip, s.aps j = .entered cr3 rsp rdi rip → StacksApart rsp (s.contexts 0).stack ∧
        ∀ k cr3' rsp' rdi' rip', j ≠ k → s.aps k = .entered cr3' rsp' rdi' rip' → StacksApart rsp rsp') := by
  have hinv := smpReachable_inv hbsp hmem hinit hfill h
  have hzero : ∀ j cr3 rsp rdi rip, s.aps j = .entered cr3 rsp rdi rip → j ≠ 0 := by
    rintro j cr3 rsp rdi rip hj rfl
    rw [hinv.off 0 (.inr (.inr (.inl hbsp)))] at hj
    cases hj
  refine ⟨⟨fun j _ _ _ _ hj => ?_, fun j k _ _ _ _ _ _ _ _ hjk hj hk => ?_, fun j _ _ _ _ hj => ?_⟩,
    fun hex j _ _ _ _ hj => ⟨?_, fun k _ _ _ _ hjk hk => ?_⟩⟩
  · obtain ⟨-, hrip, hrsp, hrdi⟩ := hinv.entered hj
    exact ⟨hrip, hrdi, hrsp⟩
  · obtain ⟨hpj, -, rfl, rfl⟩ := hinv.entered hj
    obtain ⟨hpk, -, rfl, rfl⟩ := hinv.entered hk
    exact ⟨(hinv.memory.distinct j k hpj hpk hjk).1, contextAt_ne cfg hjk⟩
  · have hj0 := hzero j _ _ _ _ hj
    obtain ⟨hpj, -, rfl, rfl⟩ := hinv.entered hj
    exact ⟨(hinv.memory.distinct j 0 hpj (.inl rfl) hj0).1, contextAt_ne cfg hj0⟩
  · have hj0 := hzero j _ _ _ _ hj
    obtain ⟨hpj, -, rfl, -⟩ := hinv.entered hj
    exact (hinv.memory.distinct j 0 hpj (.inl rfl) hj0).2 hex
  · obtain ⟨hpj, -, rfl, -⟩ := hinv.entered hj
    obtain ⟨hpk, -, rfl, -⟩ := hinv.entered hk
    exact (hinv.memory.distinct j k hpj hpk hjk).2 hex

/-! ## Two schedules -/

/-- A run by a schedule: `none` is a step of the BSP, which is checked, and `some j` a step of the processor. -/
def runSchedule (cfg : SmpConfig) (check : Smp → Bool) : List (Option Nat) → Smp → Option Smp
  | [], s => some s
  | none :: schedule, s => if check s then (bspStep cfg s).bind (runSchedule cfg check schedule) else none
  | some j :: schedule, s => (apStep j s).bind (runSchedule cfg check schedule)

/-- What every step keeps holds at the end of a schedule. -/
theorem runSchedule_keeps {P : Smp → Prop}
    (hbsp : ∀ s s', P s → check s = true → bspStep cfg s = some s' → P s') (hap : ∀ j s s', P s → apStep j s = some s' → P s')
    (schedule : List (Option Nat)) (hs : P s) (h : runSchedule cfg check schedule s = some s') : P s' := by
  induction schedule generalizing s with
  | nil =>
    cases h
    exact hs
  | cons step schedule ih =>
    cases step with
    | none =>
      rw [runSchedule] at h
      split at h
      · obtain ⟨s1, hstep, hrest⟩ := Option.bind_eq_some_iff.mp h
        exact ih (hbsp s s1 hs ‹_› hstep) hrest
      · cases h
    | some j =>
      obtain ⟨s1, hstep, hrest⟩ := Option.bind_eq_some_iff.mp h
      exact ih (hap j s s1 hs hstep) hrest

theorem smpReachable_schedule {allowed : Smp → Prop} (hcheck : ∀ s, check s = true → allowed s)
    (schedule : List (Option Nat)) (hs : SmpReachable cfg allowed s0 s)
    (h : runSchedule cfg check schedule s = some s') : SmpReachable cfg allowed s0 s' :=
  runSchedule_keeps (fun s _ hs hc hstep => .bsp hs (hcheck s hc) hstep) (fun j _ _ hs hstep => .ap j hs hstep) schedule hs h

/-- Three processors, the BSP first. -/
def exampleSmp : SmpConfig :=
  { coreCount := 3, coreIDs := fun i => i, bspID := 0, cores := 0x200000, kernelPml4 := 0x3000, apEntry := 0x100000 }

/-- The first megabyte but for its first four frames is free. -/
def examplePages : Paging :=
  { pm := { bitmap := fun i => if i = 0 then 0xF else 0, bitmapSize := 4, lastFoundBitmap := 0 }, tables := fun _ _ => 0 }

/-- A round of the BSP in which the processor answers at once and then waits, up to the signal. -/
def bspRound (j : Nat) : List (Option Nat) := [none, none, none, some j] ++ List.replicate 8 none

/-- The rest of the trampoline for the first processor. -/
def finish : List (Option Nat) := List.replicate 7 (some 1)

/-- The rest of the trampoline for two processors, each of which makes its first far jump before the other changes `trampoline_spring`. -/
def lockstep : List (Option Nat) := (List.replicate 7 [some 1, some 2]).flatten

/-- The run of a schedule from the state in which the loop starts, with the processors' final places. -/
def exampleRun (check : Smp → Bool) (schedule : List (Option Nat)) : Option (ApStage × ApStage) :=
  match bspInit exampleSmp examplePages (fun _ => ⟨0, 0, 0⟩) with
  | .ok (pg, contexts) =>
    (runSchedule exampleSmp check schedule (smpInit ⟨0, 0, 0, 0, 0, 0⟩ pg contexts)).map fun s => (s.aps 1, s.aps 2)
  | .error _ => none

theorem exampleRun_reachable {allowed : Smp → Prop} (hcheck : ∀ s, check s = true → allowed s)
    {schedule : List (Option Nat)} (h : exampleRun check schedule = some (a, b)) :
    ∃ pg contexts s, bspInit exampleSmp examplePages (fun _ => ⟨0, 0, 0⟩) = .ok (pg, contexts) ∧
      SmpReachable exampleSmp allowed (smpInit ⟨0, 0, 0, 0, 0, 0⟩ pg contexts) s ∧ s.aps 1 = a ∧ s.aps 2 = b := by
  rw [exampleRun] at h
  split at h
  · rename_i pg contexts hinit
    obtain ⟨s, hrun, hs⟩ := Option.map_eq_some_iff.mp h
    cases hs
    exact ⟨pg, contexts, s, hinit, smpReachable_schedule hcheck schedule .init hrun, rfl, rfl⟩
  · cases h

/-- With the first processor through the trampoline before the second round, it has its own context and stack. The second, in the spin,
would fault at its first far jump, since the first has changed `trampoline_spring`. -/
theorem smpReachable_launched_prompt : ∃ s, s.aps 1 = .entered 0x3000 0x27000 0x200011 0x100000 ∧ s.aps 2 = .spin ∧
    Launched exampleSmp s := by
  have hrun : exampleRun (fun s => decide (FillAllowed exampleSmp s)) ([none] ++ bspRound 1 ++ finish ++ bspRound 2) =
      some (.entered 0x3000 0x27000 0x200011 0x100000, .spin) := by decide
  obtain ⟨pg, contexts, s, hinit, hreach, h1, h2⟩ := exampleRun_reachable
    (fun _ hs => of_decide_eq_true hs) hrun
  exact ⟨s, h1, h2, (smpReachable_launched rfl (by decide) hinit (fun _ hs => hs) hreach).1⟩

/-- With the first processor delayed in the spin until the second round is over, both processors enter `ap_entry` with the context and the
stack of the second. -/
theorem processors_share_stack : ∃ pg contexts s, bspInit exampleSmp examplePages (fun _ => ⟨0, 0, 0⟩) = .ok (pg, contexts) ∧
    SmpReachable exampleSmp (fun _ => True) (smpInit ⟨0, 0, 0, 0, 0, 0⟩ pg contexts) s ∧
    s.aps 1 = .entered 0x3000 0x37000 0x200022 0x100000 ∧ s.aps 2 = .entered 0x3000 0x37000 0x200022 0x100000 ∧
    ¬ Launched exampleSmp s := by
  have hrun : exampleRun (fun _ => true) ([none] ++ bspRound 1 ++ bspRound 2 ++ lockstep) =
      some (.entered 0x3000 0x37000 0x200022 0x100000, .entered 0x3000 0x37000 0x200022 0x100000) := by decide
  obtain ⟨pg, contexts, s, hinit, hreach, h1, h2⟩ := exampleRun_reachable (fun _ _ => trivial) hrun
  refine ⟨pg, contexts, s, hinit, hreach, h1, h2, fun hl => ?_⟩
  exact (hl.apart 1 2 _ _ _ _ _ _ _ _ (by decide) h1 h2).1 rfl

end OmegaOS
