import Mathlib.Data.List.Range
import OmegaOS.Screen
import OmegaOS.Lib.Runs

/-!
# The console stays on the screen

A character fits where the cursor is when it is drawn, as long as no backspace goes back over the start of a line: that one puts the
cursor at the right edge, one row of pixels up.
-/

namespace OmegaOS

open Runs

variable {fb : Framebuffer} {font : Font} {s : Screen} {c : Int}

/-- A character at the cursor lies within the screen. -/
def Screen.Fits (fb : Framebuffer) (s : Screen) : Prop := s.x + byteSize ≤ fb.width ∧ s.y + bytesPerChar ≤ fb.height

/-- `screen_putc` draws. -/
def Drawn (c : Int) : Prop := c ≠ 9 ∧ c ≠ 10 ∧ c ≠ 8 ∧ c ≠ 0

/-- Whatever character comes next, its pixels are on the screen, and the cursor is in place whenever `drawc` is called. -/
def StaysOnScreen (fb : Framebuffer) (font : Font) (s : Screen) : Prop :=
  ∀ c, (∀ p ∈ (screenPutc fb font s c).1, p.x < fb.width ∧ p.y < fb.height) ∧ (Drawn c → (checkScroll fb s).2.Fits fb)

/-- The character is no backspace at the start of a line, the first line apart. -/
def NotOverLineStart (fb : Framebuffer) (s : Screen) (c : Int) : Prop :=
  ¬ (c = 8 ∧ s.x = 0 ∧ s.y ≠ 0 ∧ s.y + bytesPerChar ≤ fb.height)

instance (c : Int) : Decidable (NotOverLineStart fb s c) := inferInstanceAs (Decidable (¬ _))

/-- The cursor is at a multiple of the width of a character, with room for one. -/
structure Screen.Placed (fb : Framebuffer) (s : Screen) : Prop where
  aligned : byteSize ∣ s.x
  column : s.x + byteSize ≤ fb.width
  row : s.y ≤ fb.height

/-- A framebuffer for a character at least, and whose sizes leave room in 32 bits. -/
structure Framebuffer.Ok (fb : Framebuffer) : Prop where
  width : byteSize ≤ fb.width
  height : bytesPerChar ≤ fb.height
  width_lt : fb.width + byteSize * charsPerTab < 2 ^ 32
  height_lt : fb.height + bytesPerChar < 2 ^ 32

theorem placed_screenInit (hfb : fb.Ok) (s : Screen) : (screenInit fb s).2.Placed fb :=
  ⟨Nat.dvd_zero _, by simpa [screenInit, screenClear] using hfb.width, Nat.zero_le _⟩

/-- The check clears the screen when the row of the cursor does not fit. -/
theorem Screen.Placed.checkScroll_eq (h : s.Placed fb) (hfb : fb.Ok) :
    checkScroll fb s = ([], { s with x := 0, y := 0, bg := black }) ∨ s.y + bytesPerChar ≤ fb.height ∧ checkScroll fb s = ([], s) := by
  have hrow := h.row
  have hheight := hfb.height_lt
  have hmod : (s.y + bytesPerChar) % 2 ^ 32 = s.y + bytesPerChar := Nat.mod_eq_of_lt (by omega)
  rw [checkScroll, hmod]
  split
  · exact .inl rfl
  · exact .inr ⟨not_lt.mp ‹_›, rfl⟩

theorem Screen.Placed.checkScroll (h : s.Placed fb) (hfb : fb.Ok) :
    (checkScroll fb s).1 = [] ∧ (checkScroll fb s).2.Placed fb ∧ (checkScroll fb s).2.y + bytesPerChar ≤ fb.height := by
  rcases h.checkScroll_eq hfb with he | ⟨hy, he⟩
  · rw [he]
    exact ⟨rfl, ⟨Nat.dvd_zero _, by simpa using hfb.width, Nat.zero_le _⟩, by simpa using hfb.height⟩
  · rw [he]
    exact ⟨rfl, h, hy⟩

theorem screenPutc_eq (c : Int) : screenPutc fb font s c =
    ((checkScroll fb s).1 ++ (putChar fb font (checkScroll fb s).2 c).1, (putChar fb font (checkScroll fb s).2 c).2) := rfl

theorem mem_counter {start count i : Nat} (h : i ∈ counter start count) : start ≤ i ∧ i < start + count := by
  obtain ⟨hle, hlt⟩ := List.mem_range'_1.mp h
  have := Nat.mod_le (start + count) (2 ^ 32)
  omega

theorem Screen.Fits.charPixels (h : s.Fits fb) (hp : p ∈ charPixels font s c) : p.x < fb.width ∧ p.y < fb.height := by
  obtain ⟨y, hy, hp⟩ := List.mem_flatMap.mp hp
  obtain ⟨x, hx, rfl⟩ := List.mem_map.mp hp
  exact ⟨lt_of_lt_of_le (mem_counter hx).2 h.1, lt_of_lt_of_le (mem_counter hy).2 h.2⟩

theorem Screen.Placed.staysOnScreen (h : s.Placed fb) (hfb : fb.Ok) : StaysOnScreen fb font s := by
  obtain ⟨hnone, hplaced, hrow⟩ := h.checkScroll hfb
  have hfits : (OmegaOS.checkScroll fb s).2.Fits fb := ⟨hplaced.column, hrow⟩
  refine fun c => ⟨fun p hp => ?_, fun _ => hfits⟩
  rw [screenPutc_eq, hnone, List.nil_append] at hp
  generalize (OmegaOS.checkScroll fb s).2 = s' at hfits hp
  rw [putChar] at hp
  -- only a character that is drawn has pixels
  split at hp
  · cases hp
  split at hp
  · cases hp
  split at hp
  · cases hp
  split at hp
  · cases hp
  · exact hfits.charPixels hp

theorem placed_newline (hfb : fb.Ok) (hrow : s.y + bytesPerChar ≤ fb.height) : (newline s).Placed fb :=
  ⟨Nat.dvd_zero _, by simpa [newline] using hfb.width, le_trans (Nat.mod_le _ _) hrow⟩

section

variable (h : s.Placed fb) (hfb : fb.Ok)

include h hfb

/-- A sum stays within 32 bits up to a tab beyond the last character of a line. -/
theorem Screen.Placed.mod_eq (hn : n ≤ byteSize * charsPerTab + byteSize) : (s.x + n) % 2 ^ 32 = s.x + n := by
  have hcolumn := h.column
  have hwidth := hfb.width_lt
  exact Nat.mod_eq_of_lt (by omega)

theorem Screen.Placed.tab (hrow : s.y + bytesPerChar ≤ fb.height) : (tab fb s).Placed fb := by
  rw [OmegaOS.tab, h.mod_eq hfb (Nat.le_add_right _ _), Nat.add_assoc, h.mod_eq hfb (le_refl _)]
  split
  · exact ⟨Nat.dvd_add h.aligned (Nat.dvd_mul_right _ _), by rwa [add_assoc], h.row⟩
  · exact placed_newline hfb hrow

theorem Screen.Placed.drawc (hrow : s.y + bytesPerChar ≤ fb.height) (c : Int) : (drawc fb font s c).2.Placed fb := by
  rw [OmegaOS.drawc, h.mod_eq hfb (by decide), add_assoc, h.mod_eq hfb (by decide)]
  split
  · exact placed_newline hfb hrow
  · exact ⟨Nat.dvd_add h.aligned (Nat.dvd_refl _), by rw [Nat.add_assoc]; exact not_lt.mp ‹_›, h.row⟩

/-- A backspace within a line moves the cursor back by a character. -/
theorem Screen.Placed.backspace (hstart : s.x = 0 → s.y = 0) : (backspace fb s).Placed fb := by
  have hwidth := hfb.width_lt
  have hcolumn := h.column
  rw [OmegaOS.backspace]
  split
  · exact h
  · have hx : s.x ≠ 0 := fun hx => ‹¬ (s.y = 0 ∧ s.x = 0)› ⟨hstart hx, hx⟩
    have hroom : byteSize ≤ s.x := Nat.le_of_dvd (Nat.pos_of_ne_zero hx) h.aligned
    have hback : (s.x + 2 ^ 32 - byteSize) % 2 ^ 32 = s.x - byteSize := by omega
    rw [if_neg hx, hback]
    exact ⟨Nat.dvd_sub h.aligned (Nat.dvd_refl _), by dsimp only; omega, h.row⟩

/-- The cursor stays in place when no backspace goes over the start of a line. -/
theorem Screen.Placed.screenPutc (hc : NotOverLineStart fb s c) : (screenPutc fb font s c).2.Placed fb := by
  obtain ⟨-, hplaced, hrow⟩ := h.checkScroll hfb
  have hstart : c = 8 → (OmegaOS.checkScroll fb s).2.x = 0 → (OmegaOS.checkScroll fb s).2.y = 0 := by
    rintro rfl hx
    rcases h.checkScroll_eq hfb with he | ⟨hy, he⟩
    · rw [he]
    · rw [he] at hx ⊢
      by_contra hne
      exact hc ⟨rfl, hx, hne, hy⟩
  rw [screenPutc_eq]
  dsimp only
  generalize (OmegaOS.checkScroll fb s).2 = s' at hplaced hrow hstart ⊢
  rw [putChar]
  split
  · exact hplaced.tab hfb hrow
  split
  · exact placed_newline hfb hrow
  split
  · exact hplaced.backspace hfb (hstart ‹_›)
  split
  · exact hplaced
  · exact hplaced.drawc hfb hrow c

end

/-- After a backspace over the start of a line the next character would be drawn beyond the edge. -/
theorem not_staysOnScreen (hfb : fb.Ok) (hc : ¬ NotOverLineStart fb s c) : ¬ StaysOnScreen fb font (screenPutc fb font s c).2 := by
  obtain ⟨rfl, hx, hy, hrow⟩ := not_not.mp hc
  have hheight := hfb.height_lt
  have hcheck : checkScroll fb s = ([], s) := by
    rw [checkScroll, if_neg (by rw [Nat.mod_eq_of_lt (by omega)]; omega)]
  have hback : (screenPutc fb font s 8).2 = { s with x := fb.width, y := s.y - 1 } := by
    rw [screenPutc_eq, hcheck]
    simp [putChar, backspace, hx, hy]
  rw [hback]
  intro hstays
  have hfits := (hstays 65).2 ⟨by decide, by decide, by decide, by decide⟩
  have hcheck' : checkScroll fb { s with x := fb.width, y := s.y - 1 } = ([], { s with x := fb.width, y := s.y - 1 }) := by
    rw [checkScroll, if_neg (by dsimp only; rw [Nat.mod_eq_of_lt (by omega)]; omega)]
  rw [hcheck'] at hfits
  exact absurd hfits.1 (by simp [byteSize])

/-- In every state of a run from `screen_init`, whatever comes next is drawn on the screen, exactly when no backspace of the run goes
over the start of a line. -/
theorem screen_stays_iff (font : Font) (hfb : fb.Ok) (s : Screen) (cs : List Int) :
    Always (screenPutc fb font) (StaysOnScreen fb font) (screenInit fb s).2 cs ↔
      Throughout (screenPutc fb font) (NotOverLineStart fb) (screenInit fb s).2 cs :=
  always_iff (fun _ h => h.staysOnScreen hfb) (fun _ _ h hc => h.screenPutc hfb hc) (fun _ _ _ hc => not_staysOnScreen hfb hc)
    (placed_screenInit hfb s)

/-- Two characters by two, and blank glyphs. -/
def smallScreen : Framebuffer := ⟨16, 32⟩

def blankFont : Font := ⟨16, fun _ => 0⟩

theorem screen_stays_in_line :
    Always (screenPutc smallScreen blankFont) (StaysOnScreen smallScreen blankFont) (screenInit smallScreen ⟨0, 0, 0, 0⟩).2 [65, 8, 9, 10, 66] :=
  (screen_stays_iff blankFont ⟨by decide, by decide, by decide, by decide⟩ _ _).mpr
    ⟨by decide, by decide, by decide, by decide, by decide, trivial⟩

/-- A newline, a backspace and a character, which is drawn to the right of the screen. -/
theorem backspace_draws_off_screen :
    let s := [10, 8].foldl (fun s c => (screenPutc smallScreen blankFont s c).2) (screenInit smallScreen ⟨0, 0, 0, 0⟩).2
    (s.x, s.y) = (16, 15) ∧ ⟨16, 15, black⟩ ∈ (screenPutc smallScreen blankFont s 65).1 := by
  decide

end OmegaOS
