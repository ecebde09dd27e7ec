import Ptrtd.Model.Session

/-! # Shifted sequence numbers

A connection whose sequence numbers are all moved: ours by one offset, the peer's by another.
What looks only at differences of sequence numbers, or whether they are equal, commutes with
the shift. -/

namespace Ptrtd

/-- How far the sequence numbers of a connection are moved: ours, the peer's, and apart from
these `last_acked` and `timeout_mark`, which start at 0 whatever the sequence numbers are. -/
structure Offsets where
  snd : Uint
  rcv : Uint
  acked : Uint
  mark : Uint

/-- Once a segment is sent, `last_acked` is one of the peer's sequence numbers. -/
def Offsets.sent (σ : Offsets) : Offsets := { σ with acked := σ.rcv }

/-- Once the timer is set, `timeout_mark` is one of our sequence numbers. -/
def Offsets.armed (σ : Offsets) : Offsets := { σ with mark := σ.snd }

def Ringbuf.shift (k : Uint) (r : Ringbuf) : Ringbuf := { r with wSeq := r.wSeq + k }

/-- A segment whose sequence field is moved by `k` and whose ACK field is moved by `j`. -/
def Segment.shift (k j : Uint) (s : Segment) : Segment :=
  { s with seq := s.seq + k, ack := s.ack + j }

def Tcb.shift (σ : Offsets) (t : Tcb) : Tcb :=
  { t with
    inbuf := t.inbuf.shift σ.rcv
    outbuf := t.outbuf.shift σ.snd
    sndUna := t.sndUna + σ.snd
    sndNxt := t.sndNxt + σ.snd
    sndMax := t.sndMax + σ.snd
    iss := t.iss + σ.snd
    rcvNxt := t.rcvNxt + σ.rcv
    irs := t.irs + σ.rcv
    lastAcked := t.lastAcked + σ.acked
    timeoutMark := t.timeoutMark + σ.mark
    rttMark := t.rttMark + σ.snd
    rttLimit := t.rttLimit + σ.snd
    readSeq := t.readSeq + σ.rcv }

/-- The peer's segments carry its numbers as sequence and ours as ACK numbers; ours are the
other way round. -/
def Trace.shift (σ : Offsets) (tr : Trace) : Trace :=
  { tr with
    received := tr.received.map (Segment.shift σ.rcv σ.snd)
    sent := tr.sent.map (Segment.shift σ.snd σ.rcv) }

def Conn.shift (σ : Offsets) (c : Conn) : Conn :=
  { c with tcb := c.tcb.shift σ, trace := c.trace.shift σ }

def Flow.shift (σ : Offsets) : Flow → Flow
  | .done c => .done (c.shift σ)
  | .next c => .next (c.shift σ)

variable {σ : Offsets} {c : Conn} {t : Tcb} {r : Ringbuf} {x k : Uint}

/-! ## Buffers -/

theorem rbAvail_shift : rbAvail (r.shift k) (x + k) = rbAvail r x := by
  rw [rbAvail, rbAvail, Ringbuf.shift, add_sub_add_right_eq_sub]

theorem rbAdvance_shift : rbAdvance (r.shift k) (x + k) = (rbAdvance r x).shift k := by
  simp only [rbAdvance, Ringbuf.shift, add_sub_add_right_eq_sub]
  split <;> split <;> rfl

theorem rbRead_shift {max : ℤ} : rbRead (r.shift k) (x + k) max = rbRead r x max := by
  simp only [rbRead, Ringbuf.shift, add_sub_add_right_eq_sub]

/-- The result of `rb_write` with the buffer shifted. -/
def shiftStored (k : Uint) (r : Ringbuf × ℕ) : Ringbuf × ℕ := (r.1.shift k, r.2)

theorem rbStore_shift {d : List Uchar} :
    rbStore (r.shift k) d = (rbStore r d).map (shiftStored k) := by
  simp only [rbStore, rbLeft, Ringbuf.shift]
  obtain ⟨len, hlen⟩ : ∃ len, len = min (d.length : ℤ) (r.size - r.used) := ⟨_, rfl⟩
  obtain ⟨cnt, hcnt⟩ : ∃ cnt, cnt = min len (r.size - r.wPos) := ⟨_, rfl⟩
  simp only [← hlen, ← hcnt]
  cases copyIn r.p r.size r.wPos d cnt with
  | none => rfl
  | some m =>
      simp only [Option.bind_some]
      by_cases hfull : r.wPos + cnt.toNat = r.size
      · rw [if_pos hfull, if_pos hfull]
        by_cases hmore : len - cnt > 0
        · rw [if_pos hmore, if_pos hmore, Option.map_map]
          congr 1
          funext m'
          simp only [Function.comp_apply, shiftStored, Ringbuf.shift, add_right_comm _ k]
        · rw [if_neg hmore, if_neg hmore]
          simp only [Option.map_some, shiftStored, Ringbuf.shift, add_right_comm _ k]
      · rw [if_neg hfull, if_neg hfull]
        simp only [Option.map_some, shiftStored, Ringbuf.shift, add_right_comm _ k]

theorem rbWrite_shift {d : List Uchar} :
    rbWrite (r.shift k) d = (rbWrite r d).map (shiftStored k) := by
  rw [rbWrite, rbWrite]
  split
  · rfl
  · have halloc : rbAlloc (r.shift k) = (rbAlloc r).shift k := by
      rw [rbAlloc, rbAlloc]
      cases hp : r.p with
      | none => simp only [Ringbuf.shift, hp]
      | some m => simp only [Ringbuf.shift, hp]
    rw [halloc]
    exact rbStore_shift

/-! ## Windows and timers -/

theorem windowSize_shift : windowSize (t.shift σ) = windowSize t := by
  rw [windowSize, windowSize, Tcb.shift, add_sub_add_right_eq_sub]

theorem windowUpdate_shift : windowUpdate (t.shift σ) = (windowUpdate t).shift σ := by
  have hcwnd : updatedCwnd (t.shift σ) = updatedCwnd t := rfl
  rw [windowUpdate, hcwnd]
  simp only [windowUpdate, Tcb.shift, add_right_comm _ σ.snd]

end Ptrtd
