import OmegaOS.Common

/-!
# The console

`gui/screen.c`. The cursor is in 32 bits. A function returns the pixels that it draws, in order, and the state of the screen.
-/

namespace OmegaOS

/-- The size in `Framebuffer_t`. -/
structure Framebuffer where
  width : Nat
  height : Nat

/-- `PSF1Font_t`: the size of a character and the bytes at `glyphBuffer`. -/
structure Font where
  charsize : Nat
  glyphBuffer : Int → Nat

/-- `g_x`, `g_y`, `g_fg` and `g_bg`. -/
structure Screen where
  x : Nat
  y : Nat
  fg : Nat
  bg : Nat
deriving DecidableEq

structure Pixel where
  x : Nat
  y : Nat
  color : Nat
deriving DecidableEq

/-- `BYTE_SIZE`, the width of a character. -/
def byteSize : Nat := 8

/-- `BYTES_PER_CHAR`, the height of a character. -/
def bytesPerChar : Nat := 16

def charsPerTab : Nat := 4

def black : Nat := 0

def white : Nat := 0xFFFFFF

/-- The values of a `uint32_t` counter from `start` up to `start + count`, which is none when the sum wraps around. -/
def counter (start count : Nat) : List Nat := List.range' start ((start + count) % 2 ^ 32 - start)

/-- `screen_fillrect`. -/
def screenFillrect (x y w h color : Nat) : List Pixel := (counter x w).flatMap fun i => (counter y h).map fun j => ⟨i, j, color⟩

/-- `screen_clear`. Black is written by a `memset` of the buffer. -/
def screenClear (fb : Framebuffer) (s : Screen) (color : Nat) : List Pixel × Screen :=
  (if color = black then [] else screenFillrect 0 0 fb.width fb.height color, { s with x := 0, y := 0, bg := color })

/-- `screen_init`. -/
def screenInit (fb : Framebuffer) (s : Screen) : List Pixel × Screen := screenClear fb { s with fg := white, bg := black } black

def scroll (fb : Framebuffer) (s : Screen) : List Pixel × Screen := screenClear fb s black

/-- The pixels of a character, row by row. -/
def charPixels (font : Font) (s : Screen) (c : Int) : List Pixel :=
  (counter s.y bytesPerChar).flatMap fun y => (counter s.x byteSize).map fun x =>
    ⟨x, y, if (font.glyphBuffer (c * font.charsize + (y - s.y : Nat))).testBit (7 - (x - s.x)) then s.fg else s.bg⟩

/-- `drawc`. -/
def drawc (fb : Framebuffer) (font : Font) (s : Screen) (c : Int) : List Pixel × Screen :=
  let x := (s.x + byteSize) % 2 ^ 32
  let moved := if fb.width < (x + byteSize) % 2 ^ 32 then { s with x := 0, y := (s.y + bytesPerChar) % 2 ^ 32 } else { s with x := x }
  (charPixels font s c, moved)

/-- The start of `screen_putc`. -/
def checkScroll (fb : Framebuffer) (s : Screen) : List Pixel × Screen :=
  if fb.height < (s.y + bytesPerChar) % 2 ^ 32 then scroll fb s else ([], s)

/-- The case of a newline. -/
def newline (s : Screen) : Screen := { s with x := 0, y := (s.y + bytesPerChar) % 2 ^ 32 }

/-- The case of a tab, which falls through to that of a newline at the end of the line. -/
def tab (fb : Framebuffer) (s : Screen) : Screen :=
  let x := (s.x + byteSize * charsPerTab) % 2 ^ 32
  if (x + byteSize) % 2 ^ 32 ≤ fb.width then { s with x := x } else newline { s with x := x }

/-- The case of a backspace. -/
def backspace (fb : Framebuffer) (s : Screen) : Screen :=
  if s.y = 0 ∧ s.x = 0 then s
  else if s.x = 0 then { s with x := fb.width, y := s.y - 1 }
  else { s with x := (s.x + 2 ^ 32 - byteSize) % 2 ^ 32 }

/-- The `switch` of `screen_putc`. A `char` is signed. -/
def putChar (fb : Framebuffer) (font : Font) (s : Screen) (c : Int) : List Pixel × Screen :=
  if c = 9 then ([], tab fb s)
  else if c = 10 then ([], newline s)
  else if c = 8 then ([], backspace fb s)
  else if c = 0 then ([], s)
  else drawc fb font s c

/-- `screen_putc`. -/
def screenPutc (fb : Framebuffer) (font : Font) (s : Screen) (c : Int) : List Pixel × Screen :=
  let (cleared, s) := checkScroll fb s
  let (drawn, s) := putChar fb font s c
  (cleared ++ drawn, s)

end OmegaOS
