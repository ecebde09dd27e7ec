import Ptrtd.Model.Event
import Mathlib.Data.BitVec

/-! # Waiting in `event_loop`

The first half of an iteration: how long `select` is asked to wait, and whether the first time
event runs afterwards. `long` has 64 bits and is an integer here, `int` has 32. The value of
`select` and the clock afterwards are arguments. -/

namespace Ptrtd

/-- Conversion of a `long` to `int`. -/
def intOfLong (x : ℤ) : ℤ := (BitVec.ofInt 32 x).toInt

/-- `diff`: how many milliseconds remain until the event is due. -/
def timeLeft (now : Timeval) (e : Event) : ℤ := intOfLong (-intOfLong (timeAgo now e.time))

/-- What an iteration does to wait. -/
inductive LoopWait
  | forever
  | upTo (t : Timeval)
  | dont
  deriving DecidableEq, Repr

/-- The call of `select`: without a time event it has no timeout, and no call is made when the
first event is due. -/
def loopWait (ev : EventLists) (now : Timeval) : LoopWait :=
  match ev.timeEventList with
  | [] => .forever
  | e :: _ =>
      let diff := timeLeft now e
      if diff > 0 then
        let diff := if ev.alwaysEventList ≠ [] then 0 else diff
        .upTo ⟨diff.tdiv 1000, diff.tmod 1000 * 1000⟩
      else .dont

/-- `ret`: what `select` returns, or zero without a call. -/
def loopRet (ev : EventLists) (now : Timeval) (sel : ℤ) : ℤ :=
  match loopWait ev now with
  | .dont => 0
  | _ => sel

/-- The time event whose callback the iteration runs. -/
def loopTimeEvent (ev : EventLists) (now : Timeval) (sel : ℤ) : Option Event :=
  match ev.timeEventList with
  | [] => none
  | e :: _ => if loopRet ev now sel = 0 then some e else none

end Ptrtd
