import OmegaOS.Common

/-!
# The keyboard

`ps2_kbd_getc` of `dev/ps2/kbd.c`, with the tables of `dev/ps2/translator.h`. The characters of the tables are written as their codes.
-/

namespace OmegaOS

/-- `KBS_DIB`. -/
def kbsDib : BitVec 8 := 0x01

/-- `SHIFT`, `CTL`, `ALT`, `CAPSLOCK`, `NUMLOCK`, `SCROLLLOCK`, `E0ESC`. -/
def shiftBit : BitVec 32 := 1#32 <<< 0

@[inherit_doc shiftBit] def ctlBit : BitVec 32 := 1#32 <<< 1

@[inherit_doc shiftBit] def altBit : BitVec 32 := 1#32 <<< 2

@[inherit_doc shiftBit] def capslockBit : BitVec 32 := 1#32 <<< 3

@[inherit_doc shiftBit] def numlockBit : BitVec 32 := 1#32 <<< 4

@[inherit_doc shiftBit] def scrolllockBit : BitVec 32 := 1#32 <<< 5

@[inherit_doc shiftBit] def e0esc : BitVec 32 := 1#32 <<< 6

def shiftcode (data : BitVec 8) : BitVec 32 :=
  if data = 0x1D then ctlBit
  else if data = 0x2A then shiftBit
  else if data = 0x36 then shiftBit
  else if data = 0x38 then altBit
  else if data = 0x9D then ctlBit
  else if data = 0xB8 then altBit
  else 0

def togglecode (data : BitVec 8) : BitVec 32 :=
  if data = 0x3A then capslockBit
  else if data = 0x45 then numlockBit
  else if data = 0x46 then scrolllockBit
  else 0

/-- The keys that the three maps give the same codes, `KEY_UP` and those around it. -/
def specialKeys (data : Nat) : Nat :=
  match data with
  | 0x97 => 0xE0
  | 0xC8 => 0xE2
  | 0xC9 => 0xE6
  | 0xCB => 0xE4
  | 0xCD => 0xE5
  | 0xCF => 0xE1
  | 0xD0 => 0xE3
  | 0xD1 => 0xE7
  | 0xD2 => 0xE8
  | 0xD3 => 0xE9
  | _ => 0

/-- The codes of the keys behind the rows of a map: `KP_Enter`, `KP_Div` and the special keys. -/
def keypad (enter div data : Nat) : Nat := if data = 0x9C then enter else if data = 0xB5 then div else specialKeys data

def normalmap (data : Nat) : Nat :=
  [0, 27, 49, 50, 51, 52, 53, 54, 55, 56, 57, 48, 45, 61, 8, 9,
    113, 119, 101, 114, 116, 121, 117, 105, 111, 112, 91, 93, 10, 0, 97, 115,
    100, 102, 103, 104, 106, 107, 108, 59, 39, 96, 0, 92, 122, 120, 99, 118,
    98, 110, 109, 44, 46, 47, 0, 42, 0, 32, 0, 0, 0, 0, 0, 0,
    0, 0, 0, 0, 0, 0, 0, 55, 56, 57, 45, 52, 53, 54, 43, 49,
    50, 51, 48, 46, 0, 0, 0, 0].getD data (keypad 10 47 data)

def shiftmap (data : Nat) : Nat :=
  [0, 27, 33, 64, 35, 36, 37, 94, 38, 42, 40, 41, 95, 43, 8, 9,
    81, 87, 69, 82, 84, 89, 85, 73, 79, 80, 123, 125, 10, 0, 65, 83,
    68, 70, 71, 72, 74, 75, 76, 58, 34, 126, 0, 124, 90, 88, 67, 86,
    66, 78, 77, 60, 62, 63, 0, 42, 0, 32, 0, 0, 0, 0, 0, 0,
    0, 0, 0, 0, 0, 0, 0, 55, 56, 57, 45, 52, 53, 54, 43, 49,
    50, 51, 48, 46, 0, 0, 0, 0].getD data (keypad 10 47 data)

def ctlmap (data : Nat) : Nat :=
  [0, 0, 0, 0, 0, 0, 0, 0, 0, 0, 0, 0, 0, 0, 0, 0,
    17, 23, 5, 18, 20, 25, 21, 9, 15, 16, 0, 0, 13, 0, 1, 19,
    4, 6, 7, 8, 10, 11, 12, 0, 0, 0, 0, 28, 26, 24, 3, 22,
    2, 14, 13, 0, 0, 239, 0, 0].getD data (keypad 13 239 data)

/-- `charcode[i]`. -/
def charcode (i : BitVec 32) : Nat → Nat := if i = 0 then normalmap else if i = 1 then shiftmap else ctlmap

/-- A letter in the other case. -/
def otherCase (c : Nat) : Nat := if 97 ≤ c ∧ c ≤ 122 then c - 32 else if 65 ≤ c ∧ c ≤ 90 then c + 32 else c

/-- `ps2_kbd_getc`, with what the two ports hold: the result, and `shift`. -/
def ps2KbdGetc (shift : BitVec 32) (st data : BitVec 8) : Int × BitVec 32 :=
  if st &&& kbsDib = 0 then (-1, shift)
  else if data = 0xE0 then (0, shift ||| e0esc)
  else if data &&& 0x80 ≠ 0 then
    let data := if shift &&& e0esc ≠ 0 then data else data &&& 0x7F
    (0, shift &&& ~~~(shiftcode data ||| e0esc))
  else
    let (data, shift) := if shift &&& e0esc ≠ 0 then (data ||| 0x80, shift &&& ~~~e0esc) else (data, shift)
    let shift := (shift ||| shiftcode data) ^^^ togglecode data
    let c := charcode (shift &&& (ctlBit ||| shiftBit)) data.toNat
    (if shift &&& capslockBit ≠ 0 then otherCase c else c, shift)

end OmegaOS
