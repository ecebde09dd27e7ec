import Ptrtd.Library.Circular
import Mathlib.Data.BitVec

/-! # The ring buffer of `buffer.c`

`uint` is a 32-bit word. The counters `size`, `w_pos` and `used` never become negative
in a defined execution and are natural numbers; differences of them are integers, as in
the source. A `memcpy` whose count is negative or whose range leaves the block is
undefined in C: the operation then yields `none`. -/

namespace Ptrtd

/-- C's `uint`. -/
abbrev Uint := BitVec 32

/-- C's `uchar`. -/
abbrev Uchar := UInt8

/-- `struct ringbuf`. The block `p` is `none` for `NULL`. -/
structure Ringbuf where
  p : Option (Circular.Mem Uchar)
  size : ℕ
  wSeq : Uint
  wPos : ℕ
  used : ℕ

/-- `memcpy (p + pos, data, cnt)` into a block of `size` bytes. -/
def copyIn (p : Option (Circular.Mem Uchar)) (size : ℕ) (pos : ℤ) (data : List Uchar) (cnt : ℤ) :
    Option (Circular.Mem Uchar) :=
  match p with
  | none => none
  | some m =>
      if 0 ≤ cnt ∧ 0 ≤ pos ∧ pos + cnt ≤ size then
        some (Circular.store m pos.toNat (data.take cnt.toNat))
      else none

/-- `memcpy (data, p + pos, cnt)` out of a block of `size` bytes. -/
def copyOut (p : Option (Circular.Mem Uchar)) (size : ℕ) (pos cnt : ℤ) : Option (List Uchar) :=
  match p with
  | none => none
  | some m =>
      if 0 ≤ cnt ∧ 0 ≤ pos ∧ pos + cnt ≤ size then some (Circular.load m pos.toNat cnt.toNat)
      else none

def rbNew (s : ℕ) : Ringbuf := ⟨none, s, 0, 0, 0⟩

def rbSet (r : Ringbuf) (s : Uint) : Ringbuf := { r with wSeq := s }

def rbAdvance (r : Ringbuf) (s : Uint) : Ringbuf :=
  let used := (r.wSeq - s).toInt
  let r := if used ≤ 0 then { r with used := 0, wSeq := s } else { r with used := used.toNat }
  if r.used = 0 then { r with p := none, wPos := 0 } else r

def rbLeft (r : Ringbuf) : ℤ := r.size - r.used

def rbUsed (r : Ringbuf) : ℤ := r.used

/-- Number of bytes from `seq` to the write position. It is negative past the end, and
zero also for a sequence number older than the buffer reaches back. -/
def rbAvail (r : Ringbuf) (seq : Uint) : ℤ :=
  let d := (r.wSeq - seq).toInt
  if d > r.used then 0 else d

/-- The block that `rb_write` allocates when there is none. Its contents are unspecified;
no cell of it is read before it is written. -/
def rbAlloc (r : Ringbuf) : Ringbuf :=
  match r.p with
  | none => { r with p := some fun _ => 0, wPos := 0, used := 0 }
  | some _ => r

/-- `rb_write` once there is a block: store as much of `data` as fits, in at most two
pieces. The second component is the number of bytes stored. -/
def rbStore (r : Ringbuf) (data : List Uchar) : Option (Ringbuf × ℕ) :=
  let len := min (data.length : ℤ) (rbLeft r)
  let cnt := min len (r.size - r.wPos)
  (copyIn r.p r.size r.wPos data cnt).bind fun m =>
    let len := len - cnt
    let stored := cnt.toNat
    let r := { r with p := some m, used := r.used + stored, wPos := r.wPos + stored }
    if r.wPos = r.size then
      if len > 0 then
        (copyIn r.p r.size 0 (data.drop stored) len).map fun m =>
          let stored := stored + len.toNat
          ({ r with
              p := some m, used := r.used + len.toNat, wPos := len.toNat
              wSeq := r.wSeq + BitVec.ofNat 32 stored }, stored)
      else some ({ r with wPos := 0, wSeq := r.wSeq + BitVec.ofNat 32 stored }, stored)
    else some ({ r with wSeq := r.wSeq + BitVec.ofNat 32 stored }, stored)

def rbWrite (r : Ringbuf) (data : List Uchar) : Option (Ringbuf × ℕ) :=
  if data.length = 0 then some (r, 0) else rbStore (rbAlloc r) data

/-- Copy out at most `max` bytes from sequence number `seq` on, in at most two pieces. -/
def rbRead (r : Ringbuf) (seq : Uint) (max : ℤ) : Option (List Uchar) :=
  let back := (r.wSeq - seq).toInt
  if back = 0 ∨ (r.used : ℤ) < back ∨ max = 0 then some []
  else
    let max := min max back
    if back > r.wPos then
      let cnt := back - r.wPos
      let pos := r.size - cnt
      let cnt := min cnt max
      (copyOut r.p r.size pos cnt).bind fun d =>
        let max := max - cnt
        let back := back - cnt
        if max > 0 then (copyOut r.p r.size (r.wPos - back) max).map (d ++ ·) else some d
    else if max > 0 then copyOut r.p r.size (r.wPos - back) max
    else some []

end Ptrtd
