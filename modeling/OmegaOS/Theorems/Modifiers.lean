import OmegaOS.Keyboard
import OmegaOS.Lib.Runs

/-!
# The modifiers of the keyboard

A key sends a byte when it is pressed and one when it is released, some keys after the byte `0xE0`. `ps2_kbd_getc` keeps one bit for the
two keys of a modifier, so that the release of one of them takes the modifier from the other.
-/

namespace OmegaOS

open Runs

/-! ## Keys -/

/-- A key: whether its bytes come after `0xE0`, and its code. -/
structure Key where
  escaped : Bool
  code : BitVec 7
deriving DecidableEq, Repr

/-- Where the tables have the key. -/
def Key.scancode (key : Key) : BitVec 8 := (if key.escaped then 1#1 else 0#1) ++ key.code

inductive KeyEvent where
  | press (key : Key)
  | release (key : Key)
deriving DecidableEq, Repr

/-- The bytes of a make or a break sequence. -/
def KeyEvent.bytes : KeyEvent → List (BitVec 8)
  | .press key => (if key.escaped then [0xE0] else []) ++ [0#1 ++ key.code]
  | .release key => (if key.escaped then [0xE0] else []) ++ [1#1 ++ key.code]

/-- The driver's `shift` beside what the user does: the keys that are held, and how often the caps lock key has been pressed. -/
structure Keyboard where
  shift : BitVec 32
  held : Key → Bool
  capsPresses : Nat

/-- The bytes go through `ps2_kbd_getc`. -/
def processBytes (shift : BitVec 32) (bytes : List (BitVec 8)) : BitVec 32 :=
  bytes.foldl (fun shift data => (ps2KbdGetc shift kbsDib data).2) shift

/-- The user presses or releases a key. -/
def KeyEvent.step (k : Keyboard) (event : KeyEvent) : Unit × Keyboard :=
  let shift := processBytes k.shift event.bytes
  match event with
  | .press key =>
    ((), { shift, held := fun other => other = key || k.held other,
           capsPresses := if togglecode key.scancode = capslockBit then k.capsPresses + 1 else k.capsPresses })
  | .release key => ((), { shift, held := fun other => other ≠ key && k.held other, capsPresses := k.capsPresses })

/-- No key is held. -/
def Keyboard.idle : Keyboard := ⟨0, fun _ => false, 0⟩

/-- The bits of `shift` follow the keys. -/
structure ModifiersFollow (k : Keyboard) : Prop where
  modifiers : ∀ modifier ∈ [shiftBit, ctlBit, altBit], k.shift &&& modifier ≠ 0 ↔ ∃ key, k.held key = true ∧ shiftcode key.scancode = modifier
  capslock : k.shift &&& capslockBit ≠ 0 ↔ k.capsPresses % 2 = 1
  escape : k.shift &&& e0esc = 0

/-- A key is released only while no other key of its modifier is held. The break byte of the code `0x60` is `0xE0`. -/
def KeyEvent.Alone (k : Keyboard) : KeyEvent → Prop
  | .press _ => True
  | .release key => key.code ≠ 0x60#7 ∧ (shiftcode key.scancode ≠ 0 →
      ∀ other, other ≠ key → k.held other = true → shiftcode other.scancode ≠ shiftcode key.scancode)

/-! ## What an event does to `shift` -/

variable {shift modifier : BitVec 32} {k : Keyboard}

theorem make_byte : ∀ code : BitVec 7, 0#1 ++ code ≠ 0xE0#8 ∧ (0#1 ++ code) &&& 0x80#8 = 0#8 ∧ (0#1 ++ code) ||| 0x80#8 = 1#1 ++ code := by
  decide

theorem break_byte : ∀ code : BitVec 7, (1#1 ++ code = 0xE0#8 ↔ code = 0x60) ∧ (1#1 ++ code) &&& 0x80#8 ≠ 0#8 ∧
    (1#1 ++ code) &&& 0x7F#8 = 0#1 ++ code := by
  decide

theorem clear_escape (h : shift &&& e0esc = 0#32) : (shift ||| e0esc) &&& ~~~e0esc = shift := by
  have hbool : ∀ a b : Bool, (a && b) = false → ((a || b) && !b) = a := by decide
  ext i hi
  have hbit := congrArg (·[i]) h
  simp only [BitVec.getElem_and, BitVec.getElem_or, BitVec.getElem_not, BitVec.getElem_zero] at hbit ⊢
  exact hbool _ _ hbit

theorem escape_set (shift : BitVec 32) : (shift ||| e0esc) &&& e0esc ≠ 0#32 := by
  have hbool : ∀ a b : Bool, ((a || b) && b) = b := by decide
  have habsorb : (shift ||| e0esc) &&& e0esc = e0esc := by
    ext i hi
    simp only [BitVec.getElem_and, BitVec.getElem_or, hbool]
  rw [habsorb]
  decide

theorem release_escaped (shift code : BitVec 32) : (shift ||| e0esc) &&& ~~~(code ||| e0esc) = shift &&& ~~~(code ||| e0esc) := by
  have hbool : ∀ a b c : Bool, ((a || b) && !(c || b)) = (a && !(c || b)) := by decide
  ext i hi
  simp only [BitVec.getElem_and, BitVec.getElem_or, BitVec.getElem_not, hbool]

/-- A make sequence, by the key's place in the tables. -/
theorem processBytes_press (h : shift &&& e0esc = 0#32) (key : Key) :
    processBytes shift (KeyEvent.press key).bytes = (shift ||| shiftcode key.scancode) ^^^ togglecode key.scancode := by
  obtain ⟨escaped, code⟩ := key
  obtain ⟨hplain, hpress, hor⟩ := make_byte code
  cases escaped with
  | false => simp [KeyEvent.bytes, processBytes, ps2KbdGetc, Key.scancode, kbsDib, hplain, hpress, h]
  | true => simp [KeyEvent.bytes, processBytes, ps2KbdGetc, Key.scancode, kbsDib, hplain, hpress, hor, escape_set, clear_escape h]

theorem processBytes_release (h : shift &&& e0esc = 0#32) (key : Key) : processBytes shift (KeyEvent.release key).bytes =
      if key.code = 0x60#7 then shift ||| e0esc else shift &&& ~~~(shiftcode key.scancode ||| e0esc) := by
  obtain ⟨escaped, code⟩ := key
  obtain ⟨hplain, hrelease, hand⟩ := break_byte code
  by_cases hcode : code = 0x60#7
  · cases escaped with
    | false => simp [KeyEvent.bytes, processBytes, ps2KbdGetc, kbsDib, hcode]
    | true => simp [KeyEvent.bytes, processBytes, ps2KbdGetc, kbsDib, hcode, BitVec.or_assoc]
  · have hbyte := hplain.not.mpr hcode
    cases escaped with
    | false => simp [KeyEvent.bytes, processBytes, ps2KbdGetc, Key.scancode, kbsDib, hbyte, hrelease, hand, hcode, h]
    | true => simp [KeyEvent.bytes, processBytes, ps2KbdGetc, Key.scancode, kbsDib, hbyte, hrelease, hcode, escape_set, release_escaped]

/-! ## Single bits -/

theorem bit_ne_zero (hi : i < 7) : 1#32 <<< i ≠ 0#32 := by
  intro hzero
  have hset := congrArg (·.getLsbD i) hzero
  simp [show i < 32 by omega] at hset

theorem mask_ne_zero (shift : BitVec 32) (hi : i < 7) : shift &&& 1#32 <<< i ≠ 0 ↔ shift.getLsbD i = true := by
  have hbit : shift &&& 1#32 <<< i = if shift.getLsbD i = true then 1#32 <<< i else 0#32 := BitVec.and_twoPow shift i
  rw [hbit]
  split
  · exact iff_of_true (bit_ne_zero hi) ‹_›
  · exact iff_of_false (not_not_intro rfl) ‹_›

theorem shiftcode_values (data : BitVec 8) :
    shiftcode data = 0 ∨ shiftcode data = shiftBit ∨ shiftcode data = ctlBit ∨ shiftcode data = altBit := by
  rw [shiftcode]
  repeat' split
  all_goals simp

theorem togglecode_values (data : BitVec 8) :
    togglecode data = 0 ∨ togglecode data = capslockBit ∨ togglecode data = numlockBit ∨ togglecode data = scrolllockBit := by
  rw [togglecode]
  repeat' split
  all_goals simp

/-- An entry of `shiftcode` has at most one bit, of a modifier. -/
theorem shiftcode_bit (data : BitVec 8) (hi : i < 7) : (shiftcode data).getLsbD i = decide (i < 3 ∧ shiftcode data = 1#32 <<< i) := by
  rcases shiftcode_values data with h | h | h | h
  all_goals
    rw [h]
    decide +revert

/-- An entry of `togglecode` has at most one bit, of a lock. -/
theorem togglecode_bit (data : BitVec 8) (hi : i < 7) :
    (togglecode data).getLsbD i = decide (3 ≤ i ∧ i < 6 ∧ togglecode data = 1#32 <<< i) := by
  rcases togglecode_values data with h | h | h | h
  all_goals
    rw [h]
    decide +revert

theorem mem_modifiers : modifier ∈ [shiftBit, ctlBit, altBit] ↔ ∃ i < 3, modifier = 1#32 <<< i := by
  constructor
  · intro h
    simp only [List.mem_cons, List.not_mem_nil, or_false] at h
    rcases h with rfl | rfl | rfl
    · exact ⟨0, by decide, rfl⟩
    · exact ⟨1, by decide, rfl⟩
    · exact ⟨2, by decide, rfl⟩
  · rintro ⟨i, hi, rfl⟩
    decide +revert

/-- The bits that a key event leaves, for `ModifiersFollow`. -/
theorem modifiersFollow_iff (k : Keyboard) : ModifiersFollow k ↔
    (∀ i < 3, k.shift.getLsbD i = true ↔ ∃ key, k.held key = true ∧ shiftcode key.scancode = 1#32 <<< i) ∧
      (k.shift.getLsbD 3 = true ↔ k.capsPresses % 2 = 1) ∧ k.shift.getLsbD 6 = false := by
  have hcaps : k.shift &&& capslockBit ≠ 0 ↔ k.shift.getLsbD 3 = true := mask_ne_zero k.shift (by decide)
  have hescape : k.shift &&& e0esc = 0 ↔ k.shift.getLsbD 6 = false := by
    rw [← not_iff_not, Bool.not_eq_false]
    exact mask_ne_zero k.shift (by decide)
  constructor
  · intro h
    refine ⟨fun i hi => ?_, hcaps.symm.trans h.capslock, hescape.mp h.escape⟩
    exact (mask_ne_zero k.shift (by omega)).symm.trans (h.modifiers _ (mem_modifiers.mpr ⟨i, hi, rfl⟩))
  · rintro ⟨hbits, hlock, hclear⟩
    refine ⟨fun modifier hm => ?_, hcaps.trans hlock, hescape.mpr hclear⟩
    obtain ⟨i, hi, rfl⟩ := mem_modifiers.mp hm
    exact (mask_ne_zero k.shift (by omega)).trans (hbits i hi)

/-! ## Key events -/

/-- A press keeps the bits in step. -/
theorem ModifiersFollow.press (h : ModifiersFollow k) (key : Key) : ModifiersFollow (KeyEvent.step k (.press key)).2 := by
  obtain ⟨hbits, hlock, hclear⟩ := (modifiersFollow_iff k).mp h
  have hshift : (KeyEvent.step k (.press key)).2.shift = (k.shift ||| shiftcode key.scancode) ^^^ togglecode key.scancode :=
    processBytes_press h.escape key
  refine (modifiersFollow_iff _).mpr ⟨fun i hi => ?_, ?_, ?_⟩
  · have hheld : (∃ other, (KeyEvent.step k (.press key)).2.held other = true ∧ shiftcode other.scancode = 1#32 <<< i) ↔
        k.shift.getLsbD i = true ∨ shiftcode key.scancode = 1#32 <<< i := by
      rw [hbits i hi]
      simp only [KeyEvent.step, Bool.or_eq_true, decide_eq_true_eq, or_and_right, exists_or, exists_eq_left]
      exact or_comm
    rw [hheld, hshift, BitVec.getLsbD_xor, BitVec.getLsbD_or, shiftcode_bit _ (by omega), togglecode_bit _ (by omega)]
    simp [hi, show ¬ 3 ≤ i by omega]
  · rw [hshift, BitVec.getLsbD_xor, BitVec.getLsbD_or, shiftcode_bit _ (by decide), togglecode_bit _ (by decide)]
    show _ ↔ (if togglecode key.scancode = capslockBit then k.capsPresses + 1 else k.capsPresses) % 2 = 1
    by_cases hcaps : togglecode key.scancode = capslockBit
    · have hodd : k.shift.getLsbD 3 = false ↔ (k.capsPresses + 1) % 2 = 1 := by
        rw [← Bool.not_eq_true, hlock]
        omega
      rw [if_pos hcaps, hcaps, ← hodd]
      simp [capslockBit]
    · have hclears : ¬ (3 ≤ 3 ∧ 3 < 6 ∧ togglecode key.scancode = 1#32 <<< 3) := fun hbit => hcaps hbit.2.2
      rw [if_neg hcaps, ← hlock, decide_eq_false hclears]
      simp
  · rw [hshift, BitVec.getLsbD_xor, BitVec.getLsbD_or, shiftcode_bit _ (by decide), togglecode_bit _ (by decide), hclear]
    rfl

theorem release_bit (shift : BitVec 32) (data : BitVec 8) (hi : i < 7) : (shift &&& ~~~(shiftcode data ||| e0esc)).getLsbD i =
      (shift.getLsbD i && !decide (i < 3 ∧ shiftcode data = 1#32 <<< i) && decide (i ≠ 6)) := by
  have hescape : e0esc.getLsbD i = decide (i = 6) := by decide +revert
  rw [BitVec.getLsbD_and, BitVec.getLsbD_not, BitVec.getLsbD_or, shiftcode_bit data hi, hescape]
  simp [show i < 32 by omega, Bool.and_assoc]

/-- A release keeps the modifiers right exactly when the key was alone with its modifier. -/
theorem ModifiersFollow.release_iff (h : ModifiersFollow k) (key : Key) :
    ModifiersFollow (KeyEvent.step k (.release key)).2 ↔ KeyEvent.Alone k (.release key) := by
  obtain ⟨hbits, hlock, hclear⟩ := (modifiersFollow_iff k).mp h
  have hshift : (KeyEvent.step k (.release key)).2.shift = _ := processBytes_release h.escape key
  by_cases hcode : key.code = 0x60#7
  · rw [if_pos hcode] at hshift
    refine iff_of_false (fun hafter => escape_set k.shift ?_) fun halone => halone.1 hcode
    rw [← hshift]
    exact hafter.escape
  rw [if_neg hcode] at hshift
  have hheld : ∀ other, (KeyEvent.step k (.release key)).2.held other = true ↔ other ≠ key ∧ k.held other = true := by
    intro other
    simp [KeyEvent.step]
  rw [modifiersFollow_iff, KeyEvent.Alone, and_iff_right hcode]
  simp only [hheld, hshift]
  constructor
  · rintro ⟨hafter, -⟩ hmodifier other hne hother heq
    obtain ⟨i, hi, hi'⟩ := mem_modifiers.mp (by simpa using (shiftcode_values key.scancode).resolve_left hmodifier)
    have hbit := (hafter i hi).mpr ⟨other, ⟨hne, hother⟩, heq.trans hi'⟩
    rw [release_bit _ _ (by omega)] at hbit
    simp [hi, hi'] at hbit
  · intro halone
    refine ⟨fun i hi => ?_, ?_, ?_⟩
    · rw [release_bit _ _ (by omega)]
      by_cases hi' : shiftcode key.scancode = 1#32 <<< i
      · refine iff_of_false (by simp [hi, hi']) ?_
        rintro ⟨other, ⟨hne, hother⟩, heq⟩
        have hmodifier : shiftcode key.scancode ≠ 0 := by
          rw [hi']
          exact bit_ne_zero (by omega)
        exact halone hmodifier other hne hother (heq.trans hi'.symm)
      · have hkept : (k.shift.getLsbD i && !decide (i < 3 ∧ shiftcode key.scancode = 1#32 <<< i) && decide (i ≠ 6)) = k.shift.getLsbD i := by
          simp [hi', show i ≠ 6 by omega]
        rw [hkept, hbits i hi]
        constructor
        · rintro ⟨other, hother, heq⟩
          refine ⟨other, ⟨?_, hother⟩, heq⟩
          rintro rfl
          exact hi' heq
        · rintro ⟨other, ⟨-, hother⟩, heq⟩
          exact ⟨other, hother, heq⟩
    · have hpresses : (KeyEvent.step k (.release key)).2.capsPresses = k.capsPresses := rfl
      rw [release_bit _ _ (by decide), hpresses, ← hlock]
      simp
    · rw [release_bit _ _ (by decide)]
      simp

theorem idle_follows : ModifiersFollow Keyboard.idle := by
  refine (modifiersFollow_iff _).mpr ⟨fun i _ => ?_, ?_, rfl⟩
  · simp [Keyboard.idle]
  · simp [Keyboard.idle]

/-- After every key event the bits follow the keys exactly when every key is released only while no other key of its modifier is held,
and no key with the code `0x60` is released. -/
theorem modifiers_follow_iff (events : List KeyEvent) :
    Always KeyEvent.step ModifiersFollow .idle events ↔ Throughout KeyEvent.step KeyEvent.Alone .idle events := by
  refine always_iff (fun _ h => h) (fun k event h halone => ?_) (fun k event h halone hafter => ?_) idle_follows
  · cases event with
    | press key => exact h.press key
    | release key => exact (h.release_iff key).mpr halone
  · cases event with
    | press key => exact halone trivial
    | release key => exact halone ((h.release_iff key).mp hafter)

/-- The two shift keys. -/
def leftShift : Key := ⟨false, 0x2A⟩

@[inherit_doc leftShift] def rightShift : Key := ⟨false, 0x36⟩

/-- Both shift keys are pressed, then the left one is released. -/
def bothShifts : List KeyEvent := [.press leftShift, .press rightShift, .release leftShift]

/-- The release of the left shift key clears the bit that the right one needs. -/
theorem modifier_lost : bothShifts.flatMap KeyEvent.bytes = [0x2A, 0x36, 0xAA] ∧ processBytes 0 [0x2A, 0x36, 0xAA] = 0 ∧
    ¬ Always KeyEvent.step ModifiersFollow .idle bothShifts := by
  refine ⟨by decide, by decide, fun h => ?_⟩
  obtain ⟨-, -, -, hlast⟩ := h
  have hshift := (hlast.modifiers shiftBit (by simp)).mpr ⟨rightShift, by decide, by decide⟩
  exact hshift (by decide)

end OmegaOS
