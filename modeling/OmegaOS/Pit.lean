import OmegaOS.Common

/-!
# The interval timer

`pit_sleep_no_int` of `dev/pit.c`. What the timer answers when it is asked whether a countdown has expired is an argument.
-/

namespace OmegaOS

/-- The two bytes that program a countdown on port 0x40, after the mode byte 0x30 on port 0x43. -/
structure Countdown where
  low : BitVec 8
  high : BitVec 8
deriving DecidableEq, Repr

/-- How long the hardware counts: a value of 0 stands for 65536. -/
def Countdown.length (c : Countdown) : Nat :=
  let value := c.low.toNat + c.high.toNat * 2 ^ 8
  if value = 0 then 2 ^ 16 else value

/-- The inner loop, from its question number `j` on: it ends with an answer that has bit 7. -/
def waitExpired (status : Nat → BitVec 8) : Nat → Nat → Except Halt Unit
  | 0, _ => .error .spin
  | fuel + 1, j => if status j &&& 1 <<< 7 = 0 then waitExpired status fuel (j + 1) else .ok ()

/-- `MIN(total_count, 0xFFFFU)`, as a `uint16_t`. -/
def sleepCount (totalCount : BitVec 64) : BitVec 16 := (if totalCount < 0xFFFF then totalCount else 0xFFFF).setWidth 16

/-- `count & 0xFF` and `count >> 8`, as the bytes that `outb` sends. -/
def programCount (count : BitVec 16) : Countdown := ⟨(count &&& 0xFF).setWidth 8, (count >>> 8).setWidth 8⟩

/-- The outer loop, from its countdown number `i` on, with the answers that each countdown gets. -/
def sleepLoop (status : Nat → Nat → BitVec 8) (fuel : Nat) : Nat → Nat → BitVec 64 → Except Halt (List Countdown)
  | 0, _, _ => .error .spin
  | rounds + 1, i, totalCount => do
    let count := sleepCount totalCount
    waitExpired (status i) fuel 0
    let totalCount := totalCount - count.setWidth 64
    if totalCount &&& ~~~0xFFFF#64 ≠ 0#64 then
      let rest ← sleepLoop status fuel rounds (i + 1) totalCount
      return programCount count :: rest
    else return [programCount count]

/-- `pit_sleep_no_int`: the countdowns that it programs. -/
def pitSleepNoInt (status : Nat → Nat → BitVec 8) (fuel ms : Nat) : Except Halt (List Countdown) :=
  sleepLoop status fuel fuel 0 (BitVec.ofNat 64 (0x4A9 * ms))

end OmegaOS
