/-!
# Runs and what they stand for

A system whose states represent abstract ones, with a call for each input that may fail and whose result is known on the abstract
states. When one call does its work exactly under a condition, a run does exactly when the condition holds at each of its calls.
-/

namespace Runs

variable {σ α ι ρ ε : Type} (run : σ → ι → Except ε (ρ × σ)) (spec : α → ι → ρ × α) (rep : σ → α → Prop)

/-- Every call of a run returns what it returns on the abstract state, and every state represents the abstract one. -/
def Follows (s : σ) (a : α) : List ι → Prop
  | [] => rep s a
  | c :: cs => rep s a ∧ ∃ s', run s c = .ok ((spec a c).1, s') ∧ Follows s' (spec a c).2 cs

/-- A condition on the calls holds at every call of a run. -/
def Along (valid : σ → α → ι → Prop) (s : σ) (a : α) : List ι → Prop
  | [] => True
  | c :: cs => valid s a c ∧ ∀ r s', run s c = .ok (r, s') → Along valid s' (spec a c).2 cs

/-- A condition on the calls holds at every call on the abstract states. -/
def Throughout (ok : α → ι → Prop) (a : α) : List ι → Prop
  | [] => True
  | c :: cs => ok a c ∧ Throughout ok (spec a c).2 cs

/-- A property holds in every state of a run. -/
def Always (P : α → Prop) (a : α) : List ι → Prop
  | [] => P a
  | c :: cs => P a ∧ Always P (spec a c).2 cs

variable {run spec rep} {s : σ} {a : α} {cs : List ι} {valid : σ → α → ι → Prop} {ok : α → ι → Prop}

theorem Follows.first (h : Follows run spec rep s a cs) : rep s a := by
  cases cs with
  | nil => exact h
  | cons c cs => exact h.1

theorem Along.cons (hvalid : valid s a c) (hrun : run s c = .ok (r, s'))
    (hrest : Along run spec valid s' (spec a c).2 cs) : Along run spec valid s a (c :: cs) := by
  refine ⟨hvalid, fun r' s'' hrun' => ?_⟩
  rw [hrun] at hrun'
  cases hrun'
  exact hrest

/-- A run follows the abstract states exactly when the condition of its calls holds throughout. -/
theorem follows_iff (hstep : ∀ s a c, rep s a → valid s a c → ((∃ s', run s c = .ok ((spec a c).1, s') ∧ rep s' (spec a c).2) ↔ ok a c))
    (hrep : rep s a) (hvalid : Along run spec valid s a cs) : Follows run spec rep s a cs ↔ Throughout spec ok a cs := by
  induction cs generalizing s a with
  | nil => exact iff_of_true hrep trivial
  | cons c cs ih =>
    obtain ⟨hfirst, hrest⟩ := hvalid
    constructor
    · rintro ⟨-, s', hrun, hfollows⟩
      exact ⟨(hstep s a c hrep hfirst).mp ⟨s', hrun, hfollows.first⟩, (ih hfollows.first (hrest _ _ hrun)).mp hfollows⟩
    · rintro ⟨hok, hthroughout⟩
      obtain ⟨s', hrun, hrep'⟩ := (hstep s a c hrep hfirst).mpr hok
      exact ⟨hrep, s', hrun, (ih hrep' (hrest _ _ hrun)).mpr hthroughout⟩

/-- An invariant that every call keeps under its condition gives what it implies throughout a run. -/
theorem Follows.of_invariant {inv : σ → α → Prop} (himp : ∀ s a, inv s a → rep s a)
    (hstep : ∀ s a c, inv s a → ok a c → ∃ s', run s c = .ok ((spec a c).1, s') ∧ inv s' (spec a c).2) (hinv : inv s a)
    (hok : Throughout spec ok a cs) : Follows run spec rep s a cs := by
  induction cs generalizing s a with
  | nil => exact himp s a hinv
  | cons c cs ih =>
    obtain ⟨s', hrun, hinv'⟩ := hstep s a c hinv hok.1
    exact ⟨himp s a hinv, s', hrun, ih hinv' hok.2⟩

/-- When the condition of a call is what keeps an invariant that gives the property, and a call without it makes the property false,
the property holds in every state exactly when the condition holds throughout. -/
theorem always_iff {P inv : α → Prop} (hinv : ∀ a, inv a → P a) (hkeep : ∀ a c, inv a → ok a c → inv (spec a c).2)
    (hbreak : ∀ a c, inv a → ¬ ok a c → ¬ P (spec a c).2) (h : inv a) : Always spec P a cs ↔ Throughout spec ok a cs := by
  induction cs generalizing a with
  | nil => exact iff_of_true (hinv a h) trivial
  | cons c cs ih =>
    by_cases hok : ok a c
    · exact and_congr (iff_of_true (hinv a h) hok) (ih (hkeep a c h hok))
    · refine iff_of_false (fun halways => hbreak a c h hok ?_) fun hthroughout => hok hthroughout.1
      cases cs with
      | nil => exact halways.2
      | cons c' cs => exact halways.2.1

end Runs
