import Ptrtd.Verification.Packet.Bounds
import Ptrtd.Verification.Send.Window

/-! # Write events come to an end

`do_tcb_write` asks to be called again only after it has sent something into the window, and what
it sends makes the rest of the window smaller. All that it reads is in the block of `outbuf`,
unless `used` counts bytes that are not. -/

namespace Ptrtd

variable {c a : Conn} {now : Timeval} {again : Bool}

/-- Run `do_tcb_write` at these times, as long as it asks to be called again. -/
def drain : List Timeval → Conn → Option (Conn × Bool)
  | [], c => some (c, true)
  | now :: rest, c =>
      (doTcbWrite c now).bind fun (c, again) => if again then drain rest c else some (c, false)

/-! ## What is read -/

/-- The length of the data of the next segment, if it is positive. -/
def nextLength (t : Tcb) : ℤ := min (min (rbAvail t.outbuf t.sndNxt) t.mss.toNat) (windowSize t)

/-- Whether a run may ask for another one. -/
def goesOn (t : Tcb) : Bool :=
  t.eTcbSend.isSome && (t.state = .established || isClosingState t.state)

/-- In the closing states `rb_avail` is zero before the oldest byte of the buffer as it is behind
the last one, so that a FIN is sent for each sequence number in between. -/
def skipped (t : Tcb) : ℤ :=
  if t.eTcbSend.isSome ∧ isClosingState t.state then
    max 0 ((t.outbuf.wSeq - t.sndNxt).toInt - t.outbuf.used)
  else 0

/-- How far before the write position the first byte is that the runs read. -/
def unread (t : Tcb) : ℤ :=
  if t.eTcbSend.isSome ∧ isClosingState t.state then
    min (t.outbuf.wSeq - t.sndNxt).toInt t.outbuf.used
  else rbAvail t.outbuf t.sndNxt

/-- How many bytes the runs read. -/
def dueLength (t : Tcb) : ℤ :=
  if t.state = .synRecvd then 0
  else if goesOn t then min (unread t) (windowSize t - skipped t)
  else nextLength t

/-- Bytes of a buffer that lie in its block: `n` of them, from `back` before the write position
on. -/
structure Ringbuf.Within (r : Ringbuf) (back n : ℤ) : Prop where
  block : r.p.isSome = true
  first : back - r.wPos ≤ r.size
  last : r.wPos - back + n ≤ r.size

/-- The bytes that the runs read are in the block. -/
def DueWithin (t : Tcb) : Prop := 0 < dueLength t → t.outbuf.Within (unread t) (dueLength t)

namespace Buffer

theorem rbAvail_pos {r : Ringbuf} {seq : Uint} (h : 0 < rbAvail r seq) :
    rbAvail r seq = (r.wSeq - seq).toInt ∧ (r.wSeq - seq).toInt ≤ r.used := by
  rw [rbAvail] at h ⊢
  split at h
  · omega
  · next hnot => exact ⟨if_neg hnot, by omega⟩

theorem rbRead_length {r : Ringbuf} {seq : Uint} {n : ℤ} {d : List Uchar} (hpos : 0 < n)
    (hle : n ≤ rbAvail r seq) (h : rbRead r seq n = some d) : (d.length : ℤ) = n := by
  obtain ⟨havail, hused⟩ := rbAvail_pos (hpos.trans_le hle)
  rw [havail] at hle
  rw [rbRead] at h
  dsimp only at h
  rw [if_neg (by omega), min_eq_left hle] at h
  split at h
  · obtain ⟨d₁, h₁, h⟩ := Option.bind_eq_some_iff.mp h
    have hlen₁ := copyOut_length h₁
    split at h
    · obtain ⟨d₂, h₂, rfl⟩ := Option.map_eq_some_iff.mp h
      have hlen₂ := copyOut_length h₂
      rw [List.length_append]
      omega
    · cases h
      omega
  · have hlen := copyOut_length h
    omega

end Buffer

/-! ## The next segment -/

variable {t : Tcb} {data : List Uchar}

theorem sendData_eq (hmss : t.mss ≠ 0) :
    sendData t = if 0 < nextLength t then rbRead t.outbuf t.sndNxt (nextLength t) else some [] := by
  have hpos : 0 < t.mss.toNat := BitVec.toNat_pos_of_ne_zero hmss
  obtain ⟨len, hlen⟩ : ∃ len, len = if rbAvail t.outbuf t.sndNxt > t.mss.toNat then
      (t.mss.toNat : ℤ) else rbAvail t.outbuf t.sndNxt := ⟨_, rfl⟩
  have hmin : len = min (rbAvail t.outbuf t.sndNxt) t.mss.toNat := by
    rw [hlen]
    split <;> omega
  rw [sendData, nextLength]
  dsimp only
  rw [← hlen, ← hmin]
  by_cases hnext : windowSize t > 0 ∧ rbAvail t.outbuf t.sndNxt > 0
  · rw [if_pos hnext, if_pos (show 0 < min len (windowSize t) by omega)]
    congr 1
    split <;> omega
  · rw [if_neg hnext, if_neg (show ¬0 < min len (windowSize t) by omega)]

theorem sendData_length (hmss : t.mss ≠ 0) (h : sendData t = some data) :
    (data.length : ℤ) = max 0 (nextLength t) := by
  rw [sendData_eq hmss] at h
  split at h
  · next hpos =>
      rw [Buffer.rbRead_length hpos (by rw [nextLength]; omega) h, max_eq_right hpos.le]
  · cases h
    rw [max_eq_left (by omega)]
    rfl

/-- The distance to a sequence number that has moved on. -/
theorem toInt_sub_add {x y : Uint} {k : ℕ} (h : -2 ^ 31 ≤ (x - y).toInt - k) :
    (x - (y + BitVec.ofNat 32 k)).toInt = (x - y).toInt - k := by
  have hlt : 2 * (x - y).toInt < 2 ^ 32 := BitVec.two_mul_toInt_lt
  rw [← sub_sub, BitVec.toInt_sub, BitVec.toInt_ofNat', Int.sub_bmod_bmod]
  exact Int.bmod_eq_of_le_mul_two (by omega) (by omega)

theorem rbAvail_cases (r : Ringbuf) (seq : Uint) :
    r.used < (r.wSeq - seq).toInt ∧ rbAvail r seq = 0 ∨
      (r.wSeq - seq).toInt ≤ r.used ∧ rbAvail r seq = (r.wSeq - seq).toInt := by
  rw [rbAvail]
  split <;> omega

/-- The FIN is due behind the last byte, and before the oldest one. -/
theorem finDue_iff (hmss : t.mss ≠ 0) (hdata : sendData t = some data) :
    finDue t data.length = true ↔ isClosingState t.state = true ∧ 0 < windowSize t ∧
      (data.length : ℤ) < windowSize t ∧ (data.length : ℤ) = rbAvail t.outbuf t.sndNxt := by
  have hlen := sendData_length hmss hdata
  have hafter : 0 < windowSize t → (rbAvail t.outbuf (t.sndNxt + BitVec.ofNat 32 data.length) = 0 ↔
      (data.length : ℤ) = rbAvail t.outbuf t.sndNxt) := by
    intro hroom
    by_cases hpos : 0 < nextLength t
    · have hsome : 0 < rbAvail t.outbuf t.sndNxt := by
        rw [nextLength] at hpos
        omega
      obtain ⟨havail, hused⟩ := Buffer.rbAvail_pos hsome
      rw [max_eq_right hpos.le, nextLength] at hlen
      have hback := toInt_sub_add (x := t.outbuf.wSeq) (y := t.sndNxt) (k := data.length) (by omega)
      rw [rbAvail, hback, havail]
      split <;> omega
    · have hzero : data.length = 0 := by omega
      have hsmall : 0 < t.mss.toNat := BitVec.toNat_pos_of_ne_zero hmss
      rw [hzero, BitVec.add_zero]
      omega
  simp only [finDue, Bool.and_eq_true, decide_eq_true_eq]
  constructor
  · rintro ⟨⟨⟨hlt, hroom⟩, havail⟩, hclosing⟩
    exact ⟨hclosing, hroom, hlt, (hafter hroom).mp havail⟩
  · rintro ⟨hclosing, hroom, hlt, havail⟩
    exact ⟨⟨⟨hlt, hroom⟩, (hafter hroom).mpr havail⟩, hclosing⟩

/-- A run after the handshake: what it sends is moved past, and the rest of what the next run
depends on stays. -/
structure Ran (t t' : Tcb) (data : List Uchar) (again : Bool) : Prop where
  sends : sendData t = some data
  mss : t'.mss = t.mss
  outbuf : t'.outbuf = t.outbuf
  state : t'.state = t.state
  sndMax : t'.sndMax = t.sndMax
  sndNxt : t'.sndNxt =
    t.sndNxt + BitVec.ofNat 32 (data.length + if finDue t data.length then 1 else 0)
  returns : again = (t.eTcbSend.isSome && sendAgain t')
  eTcbSend : t'.eTcbSend = if again then t.eTcbSend else none

/-- The numbers that decide on the next run: a run moves by the data and by the FIN. -/
theorem Ran.moved {t t' : Tcb} (h : Ran t t' data again) (hmss : t.mss ≠ 0) :
    ∃ fin : ℤ, (fin = 0 ∨ fin = 1) ∧
      (fin = 1 ↔ isClosingState t.state = true ∧ 0 < windowSize t ∧
        (data.length : ℤ) < windowSize t ∧ (data.length : ℤ) = rbAvail t.outbuf t.sndNxt) ∧
      windowSize t' = windowSize t - (data.length + fin) ∧
      (t'.outbuf.wSeq - t'.sndNxt).toInt =
        (t.outbuf.wSeq - t.sndNxt).toInt - (data.length + fin) := by
  obtain ⟨fin, hfin⟩ : ∃ fin : ℕ, fin = if finDue t data.length then 1 else 0 := ⟨_, rfl⟩
  have hdue := finDue_iff hmss h.sends
  have hdata := sendData_length hmss h.sends
  have havail := rbAvail_cases t.outbuf t.sndNxt
  have hwindow : -2 ^ 32 ≤ 2 * (t.sndMax - t.sndNxt).toInt := BitVec.le_two_mul_toInt
  have hback : -2 ^ 32 ≤ 2 * (t.outbuf.wSeq - t.sndNxt).toInt := BitVec.le_two_mul_toInt
  have hone : (fin : ℤ) = 1 ↔ finDue t data.length = true := by
    rw [hfin]
    split <;> simp_all
  have hbit : (fin : ℤ) = 0 ∨ (fin : ℤ) = 1 := by
    rw [hfin]
    split <;> simp
  rw [hdue] at hone
  rw [nextLength] at hdata
  have hle : data.length + fin = 0 ∨ (data.length + fin : ℕ) ≤ windowSize t ∧
      (data.length + fin : ℕ) ≤ (t.outbuf.wSeq - t.sndNxt).toInt + 1 := by
    rcases hbit with hzero | hyes
    · omega
    · obtain ⟨-, hroom, hlt, hall⟩ := hone.mp hyes
      omega
  refine ⟨fin, hbit, hone, ?_⟩
  rw [windowSize, windowSize, h.outbuf, h.sndMax, h.sndNxt, ← hfin, ← Nat.cast_add]
  rcases hle with hzero | ⟨hroom, hleft⟩
  · simp [hzero]
  · rw [windowSize] at hroom
    exact ⟨toInt_sub_add (by omega), toInt_sub_add (by omega)⟩

/-- Where no other run follows, the next segment is all there is. -/
theorem due_of_stops {t : Tcb} (hstate : t.state ≠ .synRecvd) (h : goesOn t = false) :
    dueLength t = nextLength t ∧ unread t = rbAvail t.outbuf t.sndNxt ∧
      ¬(t.eTcbSend.isSome = true ∧ isClosingState t.state = true) := by
  have hnot : ¬(t.eTcbSend.isSome = true ∧ isClosingState t.state = true) := by
    rintro ⟨hsome, hclosing⟩
    rw [goesOn, hsome, hclosing, Bool.or_true] at h
    cases h
  rw [dueLength, if_neg hstate, if_neg (Bool.eq_false_iff.mp h), unread, if_neg hnot]
  exact ⟨rfl, rfl, hnot⟩

/-- While the connection is open, the data in the window is due. -/
theorem due_of_open {t : Tcb} (hsome : t.eTcbSend.isSome = true) (h : t.state = .established) :
    dueLength t = min (rbAvail t.outbuf t.sndNxt) (windowSize t) ∧
      unread t = rbAvail t.outbuf t.sndNxt := by
  have hnot : ¬(t.eTcbSend.isSome = true ∧ isClosingState t.state = true) := by
    rintro ⟨-, hclosing⟩
    rw [h] at hclosing
    cases hclosing
  have hgo : goesOn t = true := by simp [goesOn, hsome, h]
  rw [dueLength, if_neg (by rw [h]; decide), if_pos hgo, unread, if_neg hnot, skipped, if_neg hnot,
    Int.sub_zero]
  exact ⟨rfl, rfl⟩

/-- While it is being closed, the FINs before the oldest byte come first. -/
theorem due_of_closing {t : Tcb} (hsome : t.eTcbSend.isSome = true)
    (h : isClosingState t.state = true) :
    unread t = min (t.outbuf.wSeq - t.sndNxt).toInt t.outbuf.used ∧
      dueLength t = min (unread t) (windowSize t -
        max 0 ((t.outbuf.wSeq - t.sndNxt).toInt - t.outbuf.used)) := by
  have hgo : goesOn t = true := by simp [goesOn, hsome, h]
  rw [dueLength, if_neg (ne_of_isClosingState h).1, if_pos hgo, unread, skipped,
    if_pos ⟨hsome, h⟩, if_pos ⟨hsome, h⟩]
  exact ⟨rfl, rfl⟩

/-- The next segment is among what is due. -/
theorem DueWithin.next {t : Tcb} (h : DueWithin t) (hstate : t.state ≠ .synRecvd)
    (hpos : 0 < nextLength t) : t.outbuf.Within (rbAvail t.outbuf t.sndNxt) (nextLength t) := by
  have hpart : unread t = rbAvail t.outbuf t.sndNxt ∧ nextLength t ≤ dueLength t := by
    cases hgo : goesOn t with
    | false =>
        obtain ⟨hdue, hunread, -⟩ := due_of_stops hstate hgo
        exact ⟨hunread, hdue.ge⟩
    | true =>
        simp only [goesOn, Bool.and_eq_true, Bool.or_eq_true, decide_eq_true_eq] at hgo
        obtain ⟨hsome, hest | hclosing⟩ := hgo
        · obtain ⟨hdue, hunread⟩ := due_of_open hsome hest
          rw [nextLength]
          omega
        · obtain ⟨hunread, hdue⟩ := due_of_closing hsome hclosing
          have havail := rbAvail_cases t.outbuf t.sndNxt
          rw [nextLength] at hpos ⊢
          omega
  obtain ⟨hblock, hfirst, hlast⟩ := h (hpos.trans_le hpart.2)
  rw [hpart.1] at hfirst hlast
  exact ⟨hblock, hfirst, by omega⟩

/-- Nothing is read outside the buffer. -/
theorem doTcbWrite_defined (hok : c.tcb.outbuf.Ok) (now : Timeval) :
    (doTcbWrite c now).isSome = true := by
  rw [doTcbWrite]
  split
  · rfl
  · rw [Option.isSome_map, tcpSendAndAck, Option.isSome_map]
    exact Wire.sendData_defined hok

end Ptrtd
