import Mathlib.Data.List.Induction
import Mathlib.Logic.Relation
import OmegaOS.Lemmas.Queue
import OmegaOS.Lock

/-!
# What the spin lock protects

Whatever the interleaving, one routine at a time is under the lock, and the protected state is as if the bodies had been run one after
the other in the order in which they obtained the lock. The lock comes free again unless its holder is interrupted by a routine that
waits for it.
-/

namespace OmegaOS

open Relation Function

variable {σ : Type} {s s' : LockState σ} {x : σ} {c : Nat} {rest : List (σ → σ)} {above below below' pre pre' : List (LockPc σ)}
  {lock : BitVec 32} {m : Nodes} {calls : List (Nat × Nat)}

/-- The steps of a body, one after the other. -/
def runBody (body : List (σ → σ)) (x : σ) : σ := body.foldl (fun x f => f x) x

/-- The bodies that obtained the lock, one after the other. -/
def LockState.serial (s : LockState σ) (x : σ) : σ := s.entered.foldl (fun x body => runBody body x) x

def LockPc.Inside : LockPc σ → Prop
  | .inside _ => True
  | _ => False

/-- `lock_acquire` was called and has not returned. -/
def LockPc.Waiting : LockPc σ → Prop
  | .bts _ | .pause _ | .test _ => True
  | _ => False

/-- None of the routines is under the lock. -/
def Clear (fs : List (LockPc σ)) : Prop := ∀ f ∈ fs, ¬ f.Inside

@[simp] theorem clear_append {fs gs : List (LockPc σ)} : Clear (fs ++ gs) ↔ Clear fs ∧ Clear gs := List.forall_mem_append

@[simp] theorem clear_cons {f : LockPc σ} {fs : List (LockPc σ)} : Clear (f :: fs) ↔ ¬ f.Inside ∧ Clear fs := List.forall_mem_cons

@[simp] theorem clear_nil : Clear ([] : List (LockPc σ)) := List.forall_mem_nil _

theorem LockMove.clear (h : LockMove lock pre pre') : Clear pre ∧ Clear pre' := by
  cases h with
  | test => split <;> simp [LockPc.Inside]
  | _ => simp [LockPc.Inside]

/-- Who waits goes on waiting until the lock is found clear. -/
theorem LockMove.waiting (h : LockMove lock pre pre') (hw : ∃ w ∈ pre, w.Waiting) : ∃ w ∈ pre', w.Waiting := by
  cases h with
  | test => split <;> simp [LockPc.Waiting]
  | _ => simp_all [LockPc.Waiting]

/-- Nobody is under the lock and every body was run, or one routine is, with the rest of its body to run. -/
inductive LockInv (x : σ) (s : LockState σ) : Prop
  | free : s.lock = 0 → (∀ c, Clear (s.cpus c)) → s.shared = s.serial x → LockInv x s
  | held (c : Nat) (above : List (LockPc σ)) (rest : List (σ → σ)) (below : List (LockPc σ)) : s.cpus c = above ++ .inside rest :: below →
      s.lock = 1 → Clear above → Clear below → (∀ d, d ≠ c → Clear (s.cpus d)) → runBody rest s.shared = s.serial x → LockInv x s

theorem clear_update {cpus : Nat → List (LockPc σ)} {fs : List (LockPc σ)} (hc : Clear fs) (h : ∀ d, d ≠ c → Clear (cpus d)) (d : Nat) :
    Clear (update cpus c fs d) :=
  (forall_update_iff cpus fun _ fs => Clear fs).mpr ⟨hc, h⟩ d

theorem clear_others {cpus : Nat → List (LockPc σ)} {fs : List (LockPc σ)} (h : ∀ d, d ≠ c → Clear (cpus d)) (d : Nat) (hd : d ≠ c) :
    Clear (update cpus c fs d) :=
  (update_of_ne hd fs cpus).symm ▸ h d hd

/-- The routine under the lock is below those that run outside. -/
theorem split_at_inside (h : pre ++ below' = above ++ .inside rest :: below) (hpre : Clear pre) :
    ∃ mid, above = pre ++ mid ∧ below' = mid ++ .inside rest :: below := by
  rcases List.append_eq_append_iff.mp h with ⟨mid, habove, hbelow⟩ | ⟨mid, hmid, hbelow⟩
  · exact ⟨mid, habove, hbelow⟩
  · cases mid with
    | nil => exact ⟨[], by simpa using hmid.symm, by simpa using hbelow.symm⟩
    | cons f mid =>
      obtain ⟨rfl, -⟩ := List.cons.inj hbelow
      simp [hmid, LockPc.Inside] at hpre

/-- There is one routine under the lock at most. -/
theorem LockInv.running (h : LockInv x s) (hc : s.cpus c = above ++ .inside rest :: below) :
    s.lock = 1 ∧ Clear above ∧ Clear below ∧ (∀ d, d ≠ c → Clear (s.cpus d)) ∧ runBody rest s.shared = s.serial x := by
  have hinside : ∀ {fs gs : List (LockPc σ)}, ¬ Clear (fs ++ .inside rest :: gs) := by simp [LockPc.Inside]
  cases h with
  | free _ hnone _ => exact absurd (hc ▸ hnone c) hinside
  | held d above' rest' below' hd hlock habove hbelow hothers hshared =>
    by_cases hcd : c = d
    · subst hcd
      obtain ⟨mid, rfl, hmid⟩ := split_at_inside (hd.symm.trans hc) habove
      cases mid with
      | nil =>
        cases hmid
        exact ⟨hlock, by simpa using habove, hbelow, hothers, hshared⟩
      | cons f mid =>
        obtain ⟨-, rfl⟩ := List.cons.inj hmid
        exact absurd hbelow hinside
    · exact absurd (hc ▸ hothers c hcd) hinside

/-- Every step keeps the invariant. -/
theorem LockInv.step (h : LockInv x s) (hstep : LockStep s s') : LockInv x s' := by
  cases hstep with
  | @move c pre pre' below hc hmove =>
    obtain ⟨hpre, hpre'⟩ := hmove.clear
    cases h with
    | free hlock hnone hshared =>
      have hbelow := hnone c
      rw [hc, clear_append] at hbelow
      exact .free hlock (clear_update (clear_append.mpr ⟨hpre', hbelow.2⟩) fun d _ => hnone d) hshared
    | held d above rest below' hd hlock habove hbelow hothers hshared =>
      by_cases hcd : c = d
      · subst hcd
        obtain ⟨mid, rfl, rfl⟩ := split_at_inside (hc.symm.trans hd) hpre
        exact .held c (pre' ++ mid) rest below' (by simp) hlock (by simp_all) hbelow (clear_others hothers) hshared
      · have hclear := hothers c hcd
        rw [hc, clear_append] at hclear
        refine .held d above rest below' ((update_of_ne (Ne.symm hcd) ..).trans hd) hlock habove hbelow ?_ hshared
        exact (forall_update_iff s.cpus fun e fs => e ≠ d → Clear fs).mpr
          ⟨fun _ => clear_append.mpr ⟨hpre', hclear.2⟩, fun e _ => hothers e⟩
  | @enter c body below hc hclear =>
    cases h with
    | free hlock hnone hshared =>
      have hbelow := hnone c
      rw [hc, clear_cons] at hbelow
      refine .held c [] body below (update_self ..) (by simp [hlock]) clear_nil hbelow.2 (clear_others fun d _ => hnone d) ?_
      simp [LockState.serial, hshared]
    | held _ _ _ _ _ hlock _ _ _ _ => simp [hlock] at hclear
  | @work c f rest below hc =>
    obtain ⟨hlock, -, hbelow, hothers, hshared⟩ := h.running (show s.cpus c = [] ++ _ from hc)
    exact .held c [] rest below (update_self ..) hlock clear_nil hbelow (clear_others hothers) hshared
  | @release c below hc =>
    obtain ⟨-, -, hbelow, hothers, hshared⟩ := h.running (show s.cpus c = [] ++ _ from hc)
    exact .free rfl (clear_update (clear_cons.mpr ⟨id, hbelow⟩) hothers) hshared

theorem lockInv_run (h : ReflTransGen LockStep (.init x) s) : LockInv x s := by
  induction h with
  | refl => exact .free rfl (fun _ => by simp [LockState.init, LockPc.Inside]) rfl
  | tail _ hstep ih => exact ih.step hstep

/-- The sections under a lock are exclusive and atomic: in every state that any number of processors can reach with any interrupts, at
most one routine is under the lock, and its remaining steps lead to the state of all the bodies that obtained the lock, run one after
the other in that order; when no routine is, the lock is clear and the protected state is that one. -/
theorem lock_sections_serial (h : ReflTransGen LockStep (.init x) s) : (∀ c above rest below, s.cpus c = above ++ .inside rest :: below →
      s.lockUsed = 1 ∧ Clear above ∧ Clear below ∧ (∀ d, d ≠ c → Clear (s.cpus d)) ∧ runBody rest s.shared = s.serial x) ∧
      ((∀ c, Clear (s.cpus c)) → s.lockUsed = 0 ∧ s.shared = s.serial x) := by
  have hinv := lockInv_run h
  refine ⟨fun c above rest below hc => ?_, fun hnone => ?_⟩
  · obtain ⟨hlock, hrest⟩ := hinv.running hc
    exact ⟨by rw [LockState.lockUsed, hlock]; rfl, hrest⟩
  · cases hinv with
    | free hlock _ hshared => exact ⟨by rw [LockState.lockUsed, hlock]; rfl, hshared⟩
    | held c above rest below hc _ _ _ _ _ =>
      have hclear := hnone c
      simp [hc, LockPc.Inside] at hclear

/-- A processor obtains the lock. -/
theorem enter_reached (x : σ) (body : List (σ → σ)) :
    ∃ s, ReflTransGen LockStep (.init x) s ∧ s.cpus 0 = [.inside body] ∧ s.shared = x ∧ s.entered = [body] :=
  have hcall := ReflTransGen.single (LockStep.move (show (LockState.init x).cpus 0 = [.outside] ++ [] from rfl) (.call body))
  ⟨_, hcall.tail (.enter (update_self ..) (show (0 : BitVec 32).getLsbD 0 = false by decide)), by simp, rfl, rfl⟩

theorem lock_sections_serial_one : ∃ s : LockState Nat, s.cpus 0 = [.inside [(· + 1)]] ∧ s.lockUsed = 1 ∧ s.shared + 1 = s.serial 0 := by
  obtain ⟨s, hreach, hc, -⟩ := enter_reached 0 [(· + 1)]
  obtain ⟨hused, -, -, -, hshared⟩ := (lock_sections_serial hreach).1 0 [] [(· + 1)] [] hc
  exact ⟨s, hc, hused, hshared⟩

/-! ## When the lock comes free -/

/-- The routine under the lock is interrupted by one that waits for it, at once or through handlers that were interrupted themselves. -/
def LockState.Stuck (s : LockState σ) : Prop := ∃ c above rest below, s.cpus c = above ++ .inside rest :: below ∧ ∃ w ∈ above, w.Waiting

/-- A stuck lock stays stuck. -/
theorem Stuck.step (hinv : LockInv x s) (h : s.Stuck) (hstep : LockStep s s') : s'.Stuck := by
  obtain ⟨c, above, rest, below, hc, w, hw, hwait⟩ := h
  obtain ⟨hlock, habove, -, hothers, -⟩ := hinv.running hc
  -- only the processor that holds the lock works under it or releases it, and it has a handler to run first
  have hrunning : ∀ {d rest' below'}, s.cpus d ≠ .inside rest' :: below' := by
    intro d rest' below' hd
    by_cases hdc : d = c
    · subst hdc
      obtain ⟨mid, hmid, -⟩ := split_at_inside (hc.symm.trans (show s.cpus d = [] ++ _ from hd)) habove
      cases List.append_eq_nil_iff.mp hmid.symm |>.1
      cases hw
    · have hclear := hothers d hdc
      simp [hd, LockPc.Inside] at hclear
  cases hstep with
  | @move d pre pre' below' hd hmove =>
    by_cases hdc : d = c
    · subst hdc
      obtain ⟨mid, rfl, rfl⟩ := split_at_inside (hd.symm.trans hc) hmove.clear.1
      refine ⟨d, pre' ++ mid, rest, below, by simp, ?_⟩
      rcases List.mem_append.mp hw with hw | hw
      · obtain ⟨w', hw', hwait'⟩ := hmove.waiting ⟨w, hw, hwait⟩
        exact ⟨w', List.mem_append_left _ hw', hwait'⟩
      · exact ⟨w, List.mem_append_right _ hw, hwait⟩
    · exact ⟨c, above, rest, below, (update_of_ne (Ne.symm hdc) ..).trans hc, w, hw, hwait⟩
  | enter _ hclear => simp [hlock] at hclear
  | work hd | release hd => exact absurd hd hrunning

theorem Stuck.run {t : LockState σ} (hinv : LockInv x s) (h : s.Stuck) (hrun : ReflTransGen LockStep s t) : t.lock = 1 := by
  have hkept : LockInv x t ∧ t.Stuck := by
    induction hrun with
    | refl => exact ⟨hinv, h⟩
    | tail _ hstep ih => exact ⟨ih.1.step hstep, Stuck.step ih.1 ih.2 hstep⟩
  obtain ⟨c, above, rest, below, hc, -⟩ := hkept.2
  exact (hkept.1.running hc).1

/-- The routine under the lock goes on to `lock_release`. -/
theorem release_run (hc : s.cpus c = .inside rest :: below) : ∃ t, ReflTransGen LockStep s t ∧ t.lock = 0 ∧ t.entered = s.entered := by
  induction rest generalizing s with
  | nil => exact ⟨_, .single (.release hc), rfl, rfl⟩
  | cons f rest ih =>
    obtain ⟨t, hrun, hlock, hentered⟩ := @ih { s with cpus := update s.cpus c (.inside rest :: below), shared := f s.shared } (update_self ..)
    exact ⟨t, .head (.work hc) hrun, hlock, hentered⟩

/-- Handlers that do not use the lock return, and what they interrupted goes on. -/
theorem unwind (hout : ∀ f ∈ above, f = .outside) (hc : s.cpus c = above ++ .inside rest :: below) :
    ∃ t, ReflTransGen LockStep s t ∧ t.lock = 0 := by
  induction above generalizing s with
  | nil =>
    obtain ⟨t, hrun, hlock, -⟩ := release_run hc
    exact ⟨t, hrun, hlock⟩
  | cons f above ih =>
    obtain ⟨rfl, hrest⟩ := List.forall_mem_cons.mp hout
    obtain ⟨t, hrun, hlock⟩ := @ih { s with cpus := update s.cpus c (above ++ .inside rest :: below) } hrest (update_self ..)
    exact ⟨t, .head (.move (show s.cpus c = [.outside] ++ _ from hc) .iret) hrun, hlock⟩

/-- The lock can come free again exactly when its holder is not interrupted by a routine that waits for it. In the other case it stays
held whatever follows: a handler that calls `lock_acquire` on a lock of the code it interrupted never returns. -/
theorem lock_comes_free_iff (h : ReflTransGen LockStep (.init x) s) : (∃ t, ReflTransGen LockStep s t ∧ t.lock = 0) ↔ ¬ s.Stuck := by
  have hinv := lockInv_run h
  constructor
  · rintro ⟨t, hrun, hlock⟩ hstuck
    simp [Stuck.run hinv hstuck hrun] at hlock
  · intro hnot
    cases hinv with
    | free hlock _ _ => exact ⟨s, .refl, hlock⟩
    | held c above rest below hc _ habove _ _ _ =>
      refine unwind (fun f hf => ?_) hc
      have hwait : ¬ f.Waiting := fun hwait => hnot ⟨c, above, rest, below, hc, f, hf, hwait⟩
      cases f with
      | outside => rfl
      | inside rest' => exact absurd trivial (habove _ hf)
      | _ => exact absurd trivial hwait

/-- An interrupt in the midst of a section, whose handler takes the same lock. -/
theorem lock_comes_free_iff_held : ∃ s, ReflTransGen LockStep (.init 0) s ∧ ¬ ∃ t, ReflTransGen LockStep s t ∧ t.lock = 0 := by
  obtain ⟨s, hreach, hc, -⟩ := enter_reached 0 []
  have hcalled : ReflTransGen LockStep (.init 0) { s with cpus := update (update s.cpus 0 (.outside :: s.cpus 0)) 0 (.bts [] :: s.cpus 0) } :=
    (hreach.tail (.move (show s.cpus 0 = [] ++ _ from rfl) .interrupt)).tail (.move (by simp) (.call []))
  refine ⟨_, hcalled, ?_⟩
  rw [lock_comes_free_iff hcalled, not_not]
  exact ⟨0, [.bts []], [], [], by simp [hc], .bts [], List.mem_singleton_self _, trivial⟩

/-! ## The queue under its lock -/

theorem runBody_enqueueBody {q : Queue} (tmp data : Nat) (hlock : q.lock = false) :
    queueEnqueue m q tmp data = .ok (runBody (enqueueBody tmp data) (m, q)) := by
  by_cases hrear : q.rear = null <;> simp [queueEnqueue, runBody, enqueueBody, hlock, hrear]

/-- Calls of `queue_enqueue` with nodes of their own, one after the other. -/
theorem enqueueBodies_holds (m : Nodes) (hnodup : (calls.map Prod.fst).Nodup) (hnull : null ∉ calls.map Prod.fst) :
    let q := (calls.map fun c => enqueueBody c.1 c.2).foldl (fun x body => runBody body x) (m, queueCreate)
    Holds q.1 q.2 (calls.map Prod.fst) ∧ dataOf q.1 (calls.map Prod.fst) = calls.map Prod.snd := by
  induction calls using List.reverseRecOn with
  | nil => exact ⟨holds_queueCreate m, rfl⟩
  | append_singleton calls c ih =>
    rw [List.map_append, List.nodup_append] at hnodup
    rw [List.map_append, List.mem_append, not_or] at hnull
    obtain ⟨hholds, hdata⟩ := ih hnodup.1 hnull.1
    have hfresh : c.1 ∉ calls.map Prod.fst := fun hmem => hnodup.2.2 c.1 hmem c.1 (by simp) rfl
    obtain ⟨m', q', hrun, hholds', hdata', -⟩ := queueEnqueue_holds c.2 hholds (fun he => hnull.2 (by simp [he])) hfresh
    rw [runBody_enqueueBody c.1 c.2 hholds.unlocked] at hrun
    simp only [List.map_append, List.foldl_append, List.map_cons, List.map_nil, List.foldl_cons, List.foldl_nil]
    rw [Except.ok.inj hrun]
    exact ⟨hholds', by rw [hdata', hdata]⟩

/-- No update of a queue is lost: when any number of routines call `queue_enqueue` on it at the same time, with any interrupts, then
whenever its lock is clear it holds the data of the calls that obtained the lock, in that order. -/
theorem enqueues_serial {s : LockState (Nodes × Queue)} (h : ReflTransGen LockStep (.init (m, queueCreate)) s)
    (hcalls : s.entered = calls.map fun c => enqueueBody c.1 c.2) (hnodup : (calls.map Prod.fst).Nodup)
    (hnull : null ∉ calls.map Prod.fst) (hclear : s.lockUsed = 0) :
    Holds s.shared.1 s.shared.2 (calls.map Prod.fst) ∧ dataOf s.shared.1 (calls.map Prod.fst) = calls.map Prod.snd := by
  cases lockInv_run h with
  | free _ _ hshared =>
    rw [hshared, LockState.serial, hcalls]
    exact enqueueBodies_holds m hnodup hnull
  | held _ _ _ _ _ hlock _ _ _ _ => simp [LockState.lockUsed, hlock] at hclear

/-- One call, to its end. -/
theorem enqueues_serial_one : ∃ s : LockState (Nodes × Queue), s.entered = [enqueueBody 8 7] ∧ Holds s.shared.1 s.shared.2 [8] ∧
    dataOf s.shared.1 [8] = [7] := by
  obtain ⟨s, hreach, hc, -, hentered⟩ := enter_reached (fun _ => ⟨0, 0⟩, queueCreate) (enqueueBody 8 7)
  obtain ⟨t, hrun, hlock, hkept⟩ := release_run hc
  have hcalls : t.entered = [(8, 7)].map fun c => enqueueBody c.1 c.2 := hkept.trans hentered
  exact ⟨t, hcalls, enqueues_serial (hreach.trans hrun) hcalls (by simp) (by simp [null]) (by rw [LockState.lockUsed, hlock]; rfl)⟩

end OmegaOS
