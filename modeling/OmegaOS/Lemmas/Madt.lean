import Mathlib.Data.List.Basic
import OmegaOS.Madt

/-!
# The loop of `madt_init`

Which entries the loop goes through, and what each of them adds to the arrays.
-/

namespace OmegaOS

open List

variable {info info' : MadtInfo}

variable {m m' : Bytes} {stop ptr fuel : Nat} {es : List Nat}

/-! ## Entries -/

/-- `entry->length`. -/
def entryLength (m : Bytes) (ptr : Nat) : Nat := (m (ptr + 1)).toNat

/-- The entries that the loop meets from `ptr` on, as their lengths lead it, until it is at `stop` or behind. -/
inductive Walk (m : Bytes) (stop : Nat) : Nat → List Nat → Prop
  | done {ptr : Nat} (hstop : stop ≤ ptr) : Walk m stop ptr []
  | entry {ptr : Nat} {es : List Nat} (hlt : ptr < stop) (hlength : entryLength m ptr ≠ 0)
      (hrest : Walk m stop (ptr + entryLength m ptr) es) : Walk m stop ptr (ptr :: es)

/-- The entries from `ptr` on, each of two bytes at least, end at `stop`. -/
inductive Entries (m : Bytes) (stop : Nat) : Nat → List Nat → Prop
  | done : Entries m stop stop []
  | entry {ptr : Nat} {es : List Nat} (hlt : ptr < stop) (hlength : 2 ≤ entryLength m ptr)
      (hrest : Entries m stop (ptr + entryLength m ptr) es) : Entries m stop ptr (ptr :: es)

section

variable (h : Entries m stop ptr es)

include h

theorem Entries.mem : ∀ e ∈ es, ptr ≤ e ∧ e < stop ∧ 2 ≤ entryLength m e := by
  induction h with
  | done => simp
  | entry hlt hlength hrest ih =>
    intro e he
    rcases mem_cons.mp he with rfl | he
    · exact ⟨.refl, hlt, hlength⟩
    · obtain ⟨hle, hrest⟩ := ih e he
      exact ⟨by omega, hrest⟩

theorem Entries.pairwise : es.Pairwise fun e e' => e + entryLength m e ≤ e' := by
  induction h with
  | done => exact .nil
  | entry hlt hlength hrest ih => exact .cons (fun e he => (hrest.mem e he).1) ih

/-- After an entry comes the end or another entry. -/
theorem Entries.next : ∀ e ∈ es, e + entryLength m e = stop ∨ e + entryLength m e ∈ es := by
  induction h with
  | done => simp
  | @entry ptr es hlt hlength hrest ih =>
    intro e he
    rcases mem_cons.mp he with rfl | he
    · cases hrest with
      | done => exact .inl rfl
      | entry => exact .inr (by simp)
    · exact (ih e he).imp_right (mem_cons_of_mem ptr)

theorem Entries.congr (hlengths : ∀ e ∈ es, m' (e + 1) = m (e + 1)) : Entries m' stop ptr es := by
  induction h with
  | done => exact .done
  | @entry ptr es hlt hlength hrest ih =>
    have hsame : entryLength m' ptr = entryLength m ptr := by rw [entryLength, hlengths ptr mem_cons_self, entryLength]
    refine .entry hlt (hsame ▸ hlength) ?_
    rw [hsame]
    exact ih fun e he => hlengths e (.tail ptr he)

theorem Entries.walk : Walk m stop ptr es := by
  induction h with
  | done => exact .done .refl
  | entry hlt hlength hrest ih => exact .entry hlt (by omega) ih

end

/-- The loop of `madt_init` goes through the entries that it meets. -/
theorem Walk.madtLoop (h : Walk m stop ptr es) (info : MadtInfo) (hfuel : es.length < fuel) :
    madtLoop m stop fuel ptr info = es.foldlM (madtEntry m) info := by
  induction h generalizing info fuel with
  | done hstop =>
    obtain ⟨fuel, rfl⟩ := Nat.exists_eq_succ_of_ne_zero (Nat.ne_of_gt hfuel)
    rw [OmegaOS.madtLoop, if_neg (Nat.not_lt.mpr hstop)]
    rfl
  | entry hlt hlength hrest ih =>
    obtain ⟨fuel, rfl⟩ := Nat.exists_eq_succ_of_ne_zero (Nat.ne_of_gt (Nat.lt_of_le_of_lt (Nat.zero_le _) hfuel))
    rw [OmegaOS.madtLoop, if_pos hlt, foldlM_cons]
    exact congrArg _ (funext fun info => ih info (Nat.lt_of_succ_lt_succ hfuel))

/-- A loop that returns has gone through the entries that it meets. -/
theorem Walk.madtLoop_ok (h : Walk m stop ptr es) (hrun : OmegaOS.madtLoop m stop fuel ptr info = .ok info') :
    es.foldlM (madtEntry m) info = .ok info' := by
  induction h generalizing info fuel with
  | done hstop =>
    cases fuel with
    | zero => cases hrun
    | succ fuel =>
      rwa [OmegaOS.madtLoop, if_neg (Nat.not_lt.mpr hstop)] at hrun
  | entry hlt hlength hrest ih =>
    cases fuel with
    | zero => cases hrun
    | succ fuel =>
      rw [OmegaOS.madtLoop, if_pos hlt] at hrun
      obtain ⟨info1, hfirst, hlater⟩ := bind_eq_ok.mp hrun
      rw [foldlM_cons]
      exact bind_eq_ok.mpr ⟨info1, hfirst, ih hlater⟩

/-- A loop at an entry of no length does not end. -/
theorem madtLoop_ne_ok (hlt : ptr < stop) (hzero : m (ptr + 1) = 0) (info info' : MadtInfo) : madtLoop m stop fuel ptr info ≠ .ok info' := by
  induction fuel generalizing info with
  | zero => rintro ⟨⟩
  | succ fuel ih =>
    rw [madtLoop, if_pos hlt, hzero]
    intro hok
    obtain ⟨info1, -, hrest⟩ := bind_eq_ok.mp hok
    exact ih info1 hrest

/-! ## What an entry adds -/

/-- An enabled processor. -/
def isCore (m : Bytes) (e : Nat) : Prop := m e = 0 ∧ m (e + 4) &&& 1 ≠ 0

instance : DecidablePred (isCore m) := fun _ => inferInstanceAs (Decidable (_ ∧ _))

/-- The four kinds of entries: what is stored, and where. -/
theorem madtEntry_cases (m : Bytes) (info : MadtInfo) (ptr : Nat) : (isCore m ptr ∧ m ptr ≠ 1 ∧ m ptr ≠ 2 ∧
      madtEntry m info ptr = (storeEntry maxCores info.coreIDs (m (ptr + 3))).map fun l => { info with coreIDs := l }) ∨
    (¬ isCore m ptr ∧ m ptr = 1 ∧ m ptr ≠ 2 ∧
      madtEntry m info ptr = (storeEntry maxIoApic info.ioapics (ptr + 2)).map fun l => { info with ioapics := l }) ∨
    (¬ isCore m ptr ∧ m ptr ≠ 1 ∧ m ptr = 2 ∧ madtEntry m info ptr =
      (storeEntry maxIoApicRedirects info.ioapicInterruptOverride (ptr + 2)).map fun l => { info with ioapicInterruptOverride := l }) ∨
    (¬ isCore m ptr ∧ m ptr ≠ 1 ∧ m ptr ≠ 2 ∧
      madtEntry m info ptr = .ok { info with lapic := if m ptr = 5 then ptr + 4 else info.lapic }) := by
  by_cases h0 : m ptr = 0
  · by_cases hen : m (ptr + 4) &&& 1 = 0
    · simp [isCore, madtEntry, h0, hen]
    · simp [isCore, madtEntry, h0, hen]
      rfl
  · by_cases h1 : m ptr = 1
    · simp [isCore, madtEntry, h1]
      rfl
    · by_cases h2 : m ptr = 2
      · simp [isCore, madtEntry, h2]
        rfl
      · refine .inr (.inr (.inr ⟨fun h => h0 h.1, h1, h2, ?_⟩))
        rw [madtEntry, if_neg h0, if_neg h1, if_neg h2]
        by_cases h5 : m ptr = 5
        · rw [if_pos h5, if_pos h5]
        · rw [if_neg h5, if_neg h5]

theorem store_map_eq_ok {α β : Type} {size : Nat} {array : List α} {v : α} {f : List α → β} {b : β} :
    (storeEntry size array v).map f = .ok b ↔ array.length < size ∧ f (array ++ [v]) = b := by
  rw [storeEntry]
  split
  · rename_i h
    simp [Except.map, h]
  · rename_i h
    simp [Except.map, h]

/-- The arrays have room for what the entries add to them. -/
def RoomFor (m : Bytes) (info : MadtInfo) (es : List Nat) : Prop :=
  info.coreIDs.length + es.countP (isCore m ·) ≤ maxCores ∧ info.ioapics.length + es.countP (m · = 1) ≤ maxIoApic ∧
    info.ioapicInterruptOverride.length + es.countP (m · = 2) ≤ maxIoApicRedirects

theorem madtEntry_room (h : madtEntry m info ptr = .ok info') (es : List Nat) : RoomFor m info' es ↔ RoomFor m info (ptr :: es) := by
  simp only [RoomFor, countP_cons]
  rcases madtEntry_cases m info ptr with ⟨h0, h1, h2, he⟩ | ⟨h0, h1, h2, he⟩ | ⟨h0, h1, h2, he⟩ | ⟨h0, h1, h2, he⟩
  · rw [he, store_map_eq_ok] at h
    rw [← h.2]
    simp [h0, h1, h2]
    omega
  · rw [he, store_map_eq_ok] at h
    rw [← h.2]
    simp [h0, h1]
    omega
  · rw [he, store_map_eq_ok] at h
    rw [← h.2]
    simp [h0, h2]
    omega
  · rw [he] at h
    cases h
    simp [h0, h1, h2]

/-- An entry is stored exactly when there is room for it. -/
theorem madtEntry_ok_iff (hroom : RoomFor m info []) : (∃ info', madtEntry m info ptr = .ok info') ↔ RoomFor m info [ptr] := by
  simp only [RoomFor, countP_nil, add_zero, countP_cons] at hroom ⊢
  rcases madtEntry_cases m info ptr with ⟨h0, h1, h2, he⟩ | ⟨h0, h1, h2, he⟩ | ⟨h0, h1, h2, he⟩ | ⟨h0, h1, h2, he⟩
  · simp only [he, store_map_eq_ok]
    simp [h0, h1, h2]
    omega
  · simp only [he, store_map_eq_ok]
    simp [h0, h1]
    omega
  · simp only [he, store_map_eq_ok]
    simp [h0, h2]
    omega
  · simp only [he]
    simp [h0, h1, h2]
    omega

/-- The entries are stored exactly when there is room for them all. -/
theorem madtEntries_ok_iff (hroom : RoomFor m info []) : (∃ info', es.foldlM (madtEntry m) info = .ok info') ↔ RoomFor m info es := by
  induction es generalizing info with
  | nil => exact iff_of_true ⟨info, rfl⟩ hroom
  | cons e es ih =>
    rw [foldlM_cons]
    cases he : madtEntry m info e with
    | error f =>
      refine iff_of_false (by rintro ⟨_, ⟨⟩⟩) fun h => ?_
      have hone : RoomFor m info [e] := by
        simp only [RoomFor, countP_cons, countP_nil] at h ⊢
        omega
      obtain ⟨info', hok⟩ := (madtEntry_ok_iff hroom).mpr hone
      simp [he] at hok
    | ok info' =>
      have hroom' : RoomFor m info' [] := (madtEntry_room he []).mpr ((madtEntry_ok_iff hroom).mp ⟨info', he⟩)
      exact (ih hroom').trans (madtEntry_room he es)

/-- What the entries add to the arrays, and the last address of the local APICs that one of them has. -/
structure Added (m : Bytes) (info info' : MadtInfo) (es : List Nat) : Prop where
  coreIDs : info'.coreIDs = info.coreIDs ++ (es.filter (isCore m ·)).map fun e => m (e + 3)
  ioapics : info'.ioapics = info.ioapics ++ (es.filter (m · = 1)).map (· + 2)
  overrides : info'.ioapicInterruptOverride = info.ioapicInterruptOverride ++ (es.filter (m · = 2)).map (· + 2)
  lapic : info'.lapic = ((es.filter (m · = 5)).getLast?.map (· + 4)).getD info.lapic

theorem madtEntry_added (h : madtEntry m info ptr = .ok info') : Added m info info' [ptr] := by
  rcases madtEntry_cases m info ptr with ⟨h0, h1, h2, he⟩ | ⟨h0, h1, h2, he⟩ | ⟨h0, h1, h2, he⟩ | ⟨h0, h1, h2, he⟩
  · rw [he, store_map_eq_ok] at h
    have h5 : m ptr ≠ 5 := by rw [h0.1]; decide
    constructor <;> simp [← h.2, h0, h1, h2, h5]
  · rw [he, store_map_eq_ok] at h
    constructor <;> simp [← h.2, h0, h1]
  · rw [he, store_map_eq_ok] at h
    constructor <;> simp [← h.2, h0, h2]
  · rw [he] at h
    cases h
    constructor
    · simp [h0]
    · simp [h1]
    · simp [h2]
    · by_cases h5 : m ptr = 5 <;> simp [h5]

theorem Added.trans {info1 : MadtInfo} {es' : List Nat} (h : Added m info info1 es) (h' : Added m info1 info' es') :
    Added m info info' (es ++ es') := by
  refine ⟨?_, ?_, ?_, ?_⟩
  · simp [h'.coreIDs, h.coreIDs]
  · simp [h'.ioapics, h.ioapics]
  · simp [h'.overrides, h.overrides]
  · rw [h'.lapic, h.lapic, filter_append, getLast?_append]
    cases (es'.filter (m · = 5)).getLast? <;> rfl

theorem madtEntries_added (h : es.foldlM (madtEntry m) info = .ok info') : Added m info info' es := by
  induction es generalizing info with
  | nil =>
    cases h
    constructor <;> simp
  | cons e es ih =>
    rw [foldlM_cons] at h
    obtain ⟨info1, hfirst, hrest⟩ := bind_eq_ok.mp h
    exact (madtEntry_added hfirst).trans (ih hrest)

end OmegaOS
