import Ptrtd.Verification.Translation.Shift
import Ptrtd.Verification.Timer.Correctness

/-! # The daemon's functions under a shift

Each function commutes with the shift as long as its comparisons of sequence numbers, which
are unsigned, have the same results for the shifted numbers. -/

namespace Ptrtd

variable {σ : Offsets} {c : Conn} {t : Tcb} {s : Segment} {now : Timeval} {x y k : Uint}

/-- Moved by `k`, two sequence numbers compare as before. -/
def Same (k x y : Uint) : Prop := x + k < y + k ↔ x < y

instance (k x y : Uint) : Decidable (Same k x y) := inferInstanceAs (Decidable (_ ↔ _))

theorem Same.symm (h : Same k x y) : Same k y x := by
  have heq : x + k = y + k ↔ x = y := add_left_inj k
  rw [← BitVec.toNat_inj, ← BitVec.toNat_inj] at heq
  rw [Same, BitVec.lt_def, BitVec.lt_def] at h ⊢
  omega

theorem Same.refl (k x : Uint) : Same k x x := by
  rw [Same, BitVec.lt_def, BitVec.lt_def]
  omega

theorem Same.le (h : Same k x y) : y + k ≤ x + k ↔ y ≤ x := by
  rw [Same, BitVec.lt_def, BitVec.lt_def] at h
  rw [BitVec.le_def, BitVec.le_def]
  omega

/-! ## Sending -/

theorem markForIfWrite_shift (σ : Offsets) (c : Conn) :
    markForIfWrite (c.shift σ) = (markForIfWrite c).shift σ := by
  rw [markForIfWrite, markForIfWrite, apply_ite (Conn.shift σ)]
  rfl

theorem tcpAccept_shift (σ : Offsets) (c : Conn) :
    tcpAccept (c.shift σ) = (tcpAccept c).shift σ :=
  markForIfWrite_shift σ { c with trace := { c.trace with acceptCalled := true } }

theorem sendPkt_shift (σ : Offsets) (c : Conn) (s : Segment) :
    sendPkt (c.shift σ) (s.shift σ.snd σ.rcv) = (sendPkt c s).shift σ := by
  have hreach : SeqNum.reach (c.tcb.iss + σ.snd) c.trace.high
      (s.seq + σ.snd + BitVec.ofNat 32 s.span) =
      SeqNum.reach c.tcb.iss c.trace.high (s.seq + BitVec.ofNat 32 s.span) := by
    rw [SeqNum.reach, SeqNum.reach, add_right_comm, add_right_comm c.tcb.iss,
      add_sub_add_right_eq_sub]
  have htrace : (c.trace.shift σ).send (c.tcb.iss + σ.snd) (s.shift σ.snd σ.rcv) =
      (c.trace.send c.tcb.iss s).shift σ := by
    simp only [Trace.send, Trace.shift, List.map_append, List.map_cons, List.map_nil]
    exact congrArg (fun n => { (c.trace.shift σ) with
      sent := c.trace.sent.map (Segment.shift σ.snd σ.rcv) ++ [s.shift σ.snd σ.rcv]
      high := n }) hreach
  exact congrArg (fun tr => { c.shift σ with trace := tr }) htrace

theorem tcpSendRst_shift (σ : Offsets) (c : Conn) :
    tcpSendRst (c.shift σ) = (tcpSendRst c).shift σ.sent :=
  sendPkt_shift σ.sent { c with tcb := (makeTcpHdr c.tcb [] 0x14).1 } (makeTcpHdr c.tcb [] 0x14).2

theorem tcpSendSyn_shift (σ : Offsets) (c : Conn) :
    tcpSendSyn (c.shift σ) = (tcpSendSyn c).shift σ.sent := by
  have hnxt : c.tcb.sndNxt + σ.snd + 1 = c.tcb.sndNxt + 1 + σ.snd := add_right_comm ..
  have hsend := sendPkt_shift σ.sent
    { c with tcb := { (makeTcpHdr c.tcb [] 0x12).1 with sndNxt := c.tcb.sndNxt + 1 } }
    (makeTcpHdr c.tcb [] 0x12).2
  rw [tcpSendSyn, tcpSendSyn]
  refine Eq.trans ?_ hsend
  exact congrArg (fun n => sendPkt
    { c.shift σ with
      tcb := { (makeTcpHdr (c.shift σ).tcb [] 0x12).1 with sndNxt := n } }
    (makeTcpHdr (c.shift σ).tcb [] 0x12).2) hnxt

theorem tcpClose_shift_reset {hard : Bool} (h : hard = true ∨ c.tcb.state = .synRecvd) :
    tcpClose (c.shift σ) hard = (tcpClose c hard).shift σ.sent := by
  have h' : hard = true ∨ (c.shift σ).tcb.state = .synRecvd := h
  rw [tcpClose, tcpClose, if_pos h, if_pos h', tcpSendRst_shift]
  rfl

theorem tcpClose_shift_fin {hard : Bool} (h : ¬(hard = true ∨ c.tcb.state = .synRecvd)) :
    tcpClose (c.shift σ) hard = (tcpClose c hard).shift σ := by
  have h' : ¬(hard = true ∨ (c.shift σ).tcb.state = .synRecvd) := h
  rw [tcpClose, tcpClose, if_neg h, if_neg h', ← markForIfWrite_shift]
  rfl

theorem tcpTimeout_shift (σ : Offsets) (c : Conn) :
    tcpTimeout (c.shift σ) = (tcpTimeout c).shift σ := by
  have hmark : c.tcb.sndUna + σ.snd - 1 = c.tcb.sndUna - 1 + σ.snd := add_sub_right_comm ..
  rw [tcpTimeout, tcpTimeout, ← markForIfWrite_shift]
  refine congrArg markForIfWrite ?_
  have hupdate := windowUpdate_shift (σ := σ)
    (t := { c.tcb with
      eTimeout := none, sndNxt := c.tcb.sndUna, rttMark := c.tcb.sndUna - 1, sndCwnd := 0 })
  refine Eq.trans ?_ (congrArg (fun t => { c.shift σ with tcb := t }) hupdate)
  exact congrArg (fun m => { c.shift σ with
    tcb := windowUpdate
      { c.tcb.shift σ with
        eTimeout := none, sndNxt := c.tcb.sndUna + σ.snd, rttMark := m, sndCwnd := 0 } }) hmark

theorem avail_shift : rbAvail (t.shift σ).outbuf (t.shift σ).sndNxt = rbAvail t.outbuf t.sndNxt :=
  rbAvail_shift

theorem availAfter_shift (n : Uint) :
    rbAvail (t.shift σ).outbuf ((t.shift σ).sndNxt + n) = rbAvail t.outbuf (t.sndNxt + n) := by
  have hnxt : (t.shift σ).sndNxt + n = t.sndNxt + n + σ.snd := add_right_comm ..
  rw [hnxt]
  exact rbAvail_shift

theorem sendData_shift : sendData (t.shift σ) = sendData t := by
  have hread : ∀ m, rbRead (t.shift σ).outbuf (t.shift σ).sndNxt m = rbRead t.outbuf t.sndNxt m :=
    fun _ => rbRead_shift
  have hmss : (t.shift σ).mss = t.mss := rfl
  simp only [sendData, windowSize_shift, avail_shift, hread, hmss]

theorem pushDue_shift (len : ℕ) : pushDue (t.shift σ) len = pushDue t len := by
  simp only [pushDue, windowSize_shift, avail_shift, availAfter_shift]

theorem finDue_shift (len : ℕ) : finDue (t.shift σ) len = finDue t len := by
  have hstate : (t.shift σ).state = t.state := rfl
  simp only [finDue, windowSize_shift, availAfter_shift, hstate]

theorem sendAgain_shift : sendAgain (t.shift σ) = sendAgain t := by
  have hstate : (t.shift σ).state = t.state := rfl
  simp only [sendAgain, windowSize_shift, avail_shift, hstate]

theorem setTimeout_shift (σ : Offsets) (c : Conn) (now : Timeval) :
    setTimeout (c.shift σ) now = (setTimeout c now).shift σ.armed := rfl

/-- The comparisons for the RTT when a segment with `len` bytes is sent. -/
def SameEmit (k : Uint) (t : Tcb) (len : ℕ) (fin : Bool) : Prop :=
  (0 < len → (t.rttMark + k < t.sndUna + k ∧ t.rttLimit + k ≤ t.sndNxt + k ↔
    t.rttMark < t.sndUna ∧ t.rttLimit ≤ t.sndNxt)) ∧
  Same k t.rttLimit (t.sndNxt + BitVec.ofNat 32 len + (if fin then 1 else 0))

instance (k : Uint) (t : Tcb) (len : ℕ) (fin : Bool) : Decidable (SameEmit k t len fin) :=
  inferInstanceAs (Decidable ((_ → _) ∧ _))

theorem startRtt_shift {len : ℕ} {fin : Bool} (h : SameEmit σ.snd t len fin) :
    startRtt (t.shift σ) len now = (startRtt t len now).shift σ := by
  have hiff : (len > 0 ∧ (t.shift σ).rttMark < (t.shift σ).sndUna ∧
      (t.shift σ).sndNxt ≥ (t.shift σ).rttLimit) ↔
      len > 0 ∧ t.rttMark < t.sndUna ∧ t.sndNxt ≥ t.rttLimit := and_congr_right h.1
  rw [startRtt, startRtt]
  by_cases hstart : len > 0 ∧ t.rttMark < t.sndUna ∧ t.sndNxt ≥ t.rttLimit
  · rw [if_pos hstart, if_pos (hiff.mpr hstart)]
    rfl
  · rw [if_neg hstart, if_neg (mt hiff.mp hstart)]

theorem startRtt_eq (t : Tcb) (len : ℕ) (now : Timeval) : ∃ m r,
    startRtt t len now = { t with rttMark := m, rttTime := r } := by
  rw [startRtt]
  split <;> exact ⟨_, _, rfl⟩

theorem advanceNxt_shift {len : ℕ} {fin : Bool}
    (h : Same σ.snd t.rttLimit (t.sndNxt + BitVec.ofNat 32 len + (if fin then 1 else 0))) :
    advanceNxt (t.shift σ) len fin = (advanceNxt t len fin).shift σ := by
  obtain ⟨f, hf⟩ : ∃ f : Uint, f = if fin then 1 else 0 := ⟨_, rfl⟩
  rw [← hf] at h
  have hnxt : t.sndNxt + σ.snd + BitVec.ofNat 32 len + f =
      t.sndNxt + BitVec.ofNat 32 len + f + σ.snd := by
    rw [add_right_comm t.sndNxt, add_right_comm (t.sndNxt + _)]
  simp only [advanceNxt, Tcb.shift, ← hf, hnxt]
  by_cases hlt : t.rttLimit < t.sndNxt + BitVec.ofNat 32 len + f
  · rw [if_pos hlt, if_pos (h.mpr hlt)]
  · rw [if_neg hlt, if_neg (mt h.mp hlt)]

/-- The offsets after a segment with `len` bytes. -/
def Offsets.emitted (σ : Offsets) (c : Conn) (len : ℕ) : Offsets :=
  if c.tcb.eTimeout.isNone ∧ len > 0 then σ.armed.sent else σ.sent

theorem Offsets.emitted_cases (σ : Offsets) (c : Conn) (len : ℕ) :
    (σ.emitted c len).snd = σ.snd ∧ (σ.emitted c len).rcv = σ.rcv ∧
      (σ.emitted c len).acked = σ.rcv ∧
      (c.tcb.eTimeout.isNone ∧ len > 0 ∧ (σ.emitted c len).mark = σ.snd ∨
        ¬(c.tcb.eTimeout.isNone ∧ len > 0) ∧ (σ.emitted c len).mark = σ.mark) := by
  rw [emitted]
  split
  · next h => exact ⟨rfl, rfl, rfl, .inl ⟨h.1, h.2, rfl⟩⟩
  · next h => exact ⟨rfl, rfl, rfl, .inr ⟨h, rfl⟩⟩

/-- The end of `emitSegment`, once the timer is set. -/
theorem emit_shift {data : List Uchar} {fin : Bool} (flags : BitVec 6)
    (h : SameEmit σ.snd c.tcb data.length fin) :
    sendPkt
      { c.shift σ with
        tcb := advanceNxt (makeTcpHdr (startRtt (c.shift σ).tcb data.length now) data flags).1
          data.length fin }
      (makeTcpHdr (startRtt (c.shift σ).tcb data.length now) data flags).2 =
    (sendPkt
      { c with
        tcb := advanceNxt (makeTcpHdr (startRtt c.tcb data.length now) data flags).1
          data.length fin }
      (makeTcpHdr (startRtt c.tcb data.length now) data flags).2).shift σ.sent := by
  have hrtt : startRtt (c.shift σ).tcb data.length now =
      (startRtt c.tcb data.length now).shift σ := startRtt_shift h
  rw [hrtt]
  obtain ⟨m, r, hstart⟩ := startRtt_eq c.tcb data.length now
  have hsame : Same σ.sent.snd (makeTcpHdr (startRtt c.tcb data.length now) data flags).1.rttLimit
      ((makeTcpHdr (startRtt c.tcb data.length now) data flags).1.sndNxt +
        BitVec.ofNat 32 data.length + (if fin then 1 else 0)) := by
    rw [hstart]
    exact h.2
  have hnxt := advanceNxt_shift hsame
  have hsend := sendPkt_shift σ.sent
    { c with
      tcb := advanceNxt (makeTcpHdr (startRtt c.tcb data.length now) data flags).1 data.length fin }
    (makeTcpHdr (startRtt c.tcb data.length now) data flags).2
  refine Eq.trans ?_ hsend
  exact congrArg (fun t => sendPkt { c.shift σ with tcb := t }
    ((makeTcpHdr (startRtt c.tcb data.length now) data flags).2.shift σ.snd σ.rcv)) hnxt

theorem emitSegment_shift {data : List Uchar} {fin : Bool}
    (h : SameEmit σ.snd c.tcb data.length fin) :
    emitSegment (c.shift σ) data fin now =
      (emitSegment c data fin now).shift (σ.emitted c data.length) := by
  have hpush : pushDue (c.shift σ).tcb data.length = pushDue c.tcb data.length := pushDue_shift _
  have htimer : (c.shift σ).tcb.eTimeout = c.tcb.eTimeout := rfl
  rw [emitSegment, emitSegment, Offsets.emitted, hpush, htimer]
  dsimp only
  by_cases harm : c.tcb.eTimeout.isNone = true ∧ data.length > 0
  · rw [if_pos harm, if_pos harm, if_pos harm, setTimeout_shift]
    exact emit_shift _ h
  · rw [if_neg harm, if_neg harm, if_neg harm]
    exact emit_shift _ h

/-- Whether `tcp_send_and_ack` has nothing to say. -/
def Silent (t : Tcb) (len : ℕ) : Prop :=
  len = 0 ∧ ¬finDue t len = true ∧ t.lastAcked ≥ t.rcvNxt

instance (t : Tcb) (len : ℕ) : Decidable (Silent t len) :=
  inferInstanceAs (Decidable (_ ∧ _ ∧ _))

/-- The comparisons of `tcp_send_and_ack`; `l` is how far `last_acked` is moved. -/
def SameWrite (k j l : Uint) (t : Tcb) : Prop :=
  ∀ data ∈ sendData t,
    (data.length = 0 → finDue t data.length = false →
      (t.rcvNxt + j ≤ t.lastAcked + l ↔ t.rcvNxt ≤ t.lastAcked)) ∧
    (¬Silent t data.length → SameEmit k t data.length (finDue t data.length))

instance (k j l : Uint) (t : Tcb) : Decidable (SameWrite k j l t) :=
  match h : sendData t with
  | none => isTrue fun _ hd => by rw [h] at hd; cases hd
  | some data => decidable_of_iff
      ((data.length = 0 → finDue t data.length = false →
        (t.rcvNxt + j ≤ t.lastAcked + l ↔ t.rcvNxt ≤ t.lastAcked)) ∧
      (¬Silent t data.length → SameEmit k t data.length (finDue t data.length))) (by
        simp [SameWrite, h])

theorem silent_shift {data : List Uchar} (h : SameWrite σ.snd σ.rcv σ.acked t)
    (hdata : sendData t = some data) : Silent (t.shift σ) data.length ↔ Silent t data.length := by
  have hfin : finDue (t.shift σ) data.length = finDue t data.length := finDue_shift _
  obtain ⟨hsilent, -⟩ := h data hdata
  rw [Silent, Silent, hfin]
  refine and_congr_right fun hzero => and_congr_right fun hno => ?_
  exact hsilent hzero (by simpa using hno)

theorem tcpSendAndAck_silent {data : List Uchar} (hdata : sendData c.tcb = some data)
    (h : Silent c.tcb data.length) : tcpSendAndAck c now = some (c, false) := by
  rw [tcpSendAndAck, hdata]
  exact congrArg some (if_pos h)

theorem tcpSendAndAck_emit {data : List Uchar} (hdata : sendData c.tcb = some data)
    (h : ¬Silent c.tcb data.length) : tcpSendAndAck c now =
      some (emitSegment c data (finDue c.tcb data.length) now,
        sendAgain (emitSegment c data (finDue c.tcb data.length) now).tcb) := by
  rw [tcpSendAndAck, hdata]
  exact congrArg some (if_neg h)

/-- The callback's value and the pointer, once `tcp_send_and_ack` has returned. -/
def keepEvent (c : Conn) (more : Bool) : Conn × Bool :=
  let c := if more then c else { c with tcb := { c.tcb with eTcbSend := none } }
  (c, c.tcb.eTcbSend.isSome)

theorem keepEvent_shift (σ : Offsets) (c : Conn) (more : Bool) :
    keepEvent (c.shift σ) more = ((keepEvent c more).1.shift σ, (keepEvent c more).2) := by
  cases more <;> rfl

theorem doTcbWrite_past (h : c.tcb.state ≠ .synRecvd) :
    doTcbWrite c now = (tcpSendAndAck c now).map fun r => keepEvent r.1 r.2 := if_neg h

/-- No timer looks at `timeout_mark`. -/
def Untimed (c : Conn) : Prop := c.tcb.eTimeout = none ∨ c.tcb.state = .timeWait

/-- The offsets of `last_acked` and `timeout_mark` are those of the peer's numbers and of ours,
unless these fields have not been set yet. -/
structure Suits (σ : Offsets) (c : Conn) : Prop where
  acked : σ.acked = if c.trace.sent = [] then 0 else σ.rcv
  mark : σ.mark = σ.snd ∨ Untimed c

theorem Suits.of_eq {c' : Conn} (h : Suits σ c) (hsent : c'.trace.sent = c.trace.sent)
    (htimer : Untimed c → Untimed c') : Suits σ c' :=
  ⟨by rw [hsent]; exact h.acked, h.mark.imp_right htimer⟩

/-- After a segment has been sent. -/
theorem Suits.of_sent {σ' : Offsets} {c' : Conn} (h : Suits σ c) (hsent : c'.trace.sent ≠ [])
    (hsnd : σ'.snd = σ.snd) (hacked : σ'.acked = σ'.rcv)
    (hmark : σ'.mark = σ.snd ∨ σ'.mark = σ.mark ∧ (Untimed c → Untimed c')) : Suits σ' c' := by
  refine ⟨by rw [if_neg hsent, hacked], ?_⟩
  rcases hmark with heq | ⟨heq, htimer⟩
  · exact .inl (heq.trans hsnd.symm)
  · rw [heq, hsnd]
    exact h.mark.imp_right htimer

theorem emitSegment_timer {data : List Uchar} {fin : Bool}
    (h : ¬(c.tcb.eTimeout.isNone = true ∧ data.length > 0)) :
    (emitSegment c data fin now).tcb.eTimeout = c.tcb.eTimeout := by
  obtain ⟨m, r, hstart⟩ := startRtt_eq c.tcb data.length now
  simp only [emitSegment]
  rw [if_neg h, hstart]
  rfl

theorem keepEvent_fields (c : Conn) (more : Bool) :
    (keepEvent c more).1.trace = c.trace ∧
      (keepEvent c more).1.tcb.eTimeout = c.tcb.eTimeout ∧
      (keepEvent c more).1.tcb.state = c.tcb.state := by
  cases more <;> exact ⟨rfl, rfl, rfl⟩

/-- `do_tcb_write` sends the SYN/ACK, nothing, or a segment. -/
theorem doTcbWrite_shift {c' : Conn} {again : Bool} (hsuits : Suits σ c)
    (hside : c.tcb.state ≠ .synRecvd → SameWrite σ.snd σ.rcv σ.acked c.tcb)
    (h : doTcbWrite c now = some (c', again)) :
    ∃ σ', doTcbWrite (c.shift σ) now = some (c'.shift σ', again) ∧ σ'.snd = σ.snd ∧
      σ'.rcv = σ.rcv ∧ Suits σ' c' := by
  by_cases hsyn : c.tcb.state = .synRecvd
  · have hsyn' : (c.shift σ).tcb.state = .synRecvd := hsyn
    rw [doTcbWrite, if_pos hsyn] at h
    obtain ⟨rfl, rfl⟩ := Prod.mk.inj (Option.some.inj h)
    rw [doTcbWrite, if_pos hsyn', tcpSendSyn_shift]
    refine ⟨σ.sent, rfl, rfl, rfl, hsuits.of_sent ?_ rfl rfl ?_⟩
    · exact List.append_ne_nil_of_right_ne_nil _ (List.cons_ne_nil _ _)
    · exact .inr ⟨rfl, id⟩
  · have hsyn' : (c.shift σ).tcb.state ≠ .synRecvd := hsyn
    have hsame := hside hsyn
    rw [doTcbWrite_past hsyn] at h
    rw [doTcbWrite_past hsyn']
    cases hdata : sendData c.tcb with
    | none =>
        rw [tcpSendAndAck, hdata] at h
        cases h
    | some data =>
        have hdata' : sendData (c.shift σ).tcb = some data := sendData_shift.trans hdata
        by_cases hsilent : Silent c.tcb data.length
        · have hsilent' : Silent (c.shift σ).tcb data.length :=
            (silent_shift hsame hdata).mpr hsilent
          rw [tcpSendAndAck_silent hdata hsilent] at h
          obtain ⟨rfl, rfl⟩ := Prod.mk.inj (Option.some.inj h)
          rw [tcpSendAndAck_silent hdata' hsilent']
          exact ⟨σ, rfl, rfl, rfl, hsuits.of_eq rfl id⟩
        · have hsilent' : ¬Silent (c.shift σ).tcb data.length :=
            mt (silent_shift hsame hdata).mp hsilent
          have hfin : finDue (c.shift σ).tcb data.length = finDue c.tcb data.length :=
            finDue_shift _
          have hemit := (hsame data hdata).2 hsilent
          rw [tcpSendAndAck_emit hdata hsilent, Option.map_some] at h
          rw [tcpSendAndAck_emit hdata' hsilent', hfin, emitSegment_shift hemit, Option.map_some]
          obtain ⟨l, n, e, k, m, r, w, la, heq⟩ :=
            emitSegment_eq c data (finDue c.tcb data.length) now
          have htimer : ¬(c.tcb.eTimeout.isNone = true ∧ data.length > 0) →
              (emitSegment c data (finDue c.tcb data.length) now).tcb.eTimeout = c.tcb.eTimeout :=
            emitSegment_timer
          have hsent : (emitSegment c data (finDue c.tcb data.length) now).trace.sent ≠ [] := by
            rw [heq]
            exact List.append_ne_nil_of_right_ne_nil _ (List.cons_ne_nil _ _)
          have hstate : (emitSegment c data (finDue c.tcb data.length) now).tcb.state =
              c.tcb.state := by rw [heq]
          generalize emitSegment c data (finDue c.tcb data.length) now = a at *
          have hagain : sendAgain (a.shift (σ.emitted c data.length)).tcb = sendAgain a.tcb :=
            sendAgain_shift
          obtain ⟨htrace, htime, hst⟩ := keepEvent_fields a (sendAgain a.tcb)
          rw [hagain, keepEvent_shift, Option.some.inj h]
          rw [Option.some.inj h] at htrace htime hst
          obtain ⟨hsnd, hrcv, hacked, hmark⟩ := σ.emitted_cases c data.length
          refine ⟨σ.emitted c data.length, rfl, hsnd, hrcv, hsuits.of_sent ?_ hsnd ?_ ?_⟩
          · rw [htrace]
            exact hsent
          · rw [hacked, hrcv]
          · rcases hmark with ⟨-, -, hmark⟩ | ⟨hno, hmark⟩
            · exact .inl hmark
            · refine .inr ⟨hmark, fun hun => ?_⟩
              rw [Untimed, htime, hst, htimer hno, hstate]
              exact hun

/-! ## The relay -/

theorem tcpSend_shift (σ : Offsets) (c : Conn) (d : List Uchar) :
    tcpSend (c.shift σ) d = (tcpSend c d).map (Conn.shift σ) := by
  have hwrite : rbWrite (c.shift σ).tcb.outbuf d =
      (rbWrite c.tcb.outbuf d).map (shiftStored σ.snd) :=
    rbWrite_shift
  rw [tcpSend, tcpSend, hwrite, Option.map_map, Option.map_map]
  refine congrArg (fun f => Option.map f _) (funext ?_)
  rintro ⟨r, n⟩
  obtain ⟨a, ha⟩ : ∃ a : Conn, a =
      { c with
        tcb := { c.tcb with outbuf := r }
        trace := { c.trace with written := c.trace.written ++ d.take n } } := ⟨_, rfl⟩
  have hsize : windowSize (a.shift σ).tcb = windowSize a.tcb := windowSize_shift
  have hsend : (if windowSize (a.shift σ).tcb > 0 then markForIfWrite (a.shift σ) else a.shift σ) =
      (if windowSize a.tcb > 0 then markForIfWrite a else a).shift σ := by
    rw [hsize, markForIfWrite_shift, apply_ite (Conn.shift σ)]
  subst ha
  exact hsend

theorem tcpRead_shift (σ : Offsets) (c : Conn) (len : ℤ) :
    tcpRead (c.shift σ) len = (tcpRead c len).map fun r => (r.1.shift σ, r.2) := by
  have havail : rbAvail (c.shift σ).tcb.inbuf (c.shift σ).tcb.readSeq =
      rbAvail c.tcb.inbuf c.tcb.readSeq := rbAvail_shift
  have hread : ∀ m, rbRead (c.shift σ).tcb.inbuf (c.shift σ).tcb.readSeq m =
      rbRead c.tcb.inbuf c.tcb.readSeq m := fun _ => rbRead_shift
  simp only [tcpRead, havail, hread, Option.map_map]
  refine congrArg (fun f => Option.map f _) (funext fun d => ?_)
  have hseq : (c.shift σ).tcb.readSeq + BitVec.ofNat 32 d.length =
      c.tcb.readSeq + BitVec.ofNat 32 d.length + σ.rcv := add_right_comm ..
  have hadvance :
      rbAdvance (c.shift σ).tcb.inbuf (c.tcb.readSeq + BitVec.ofNat 32 d.length + σ.rcv) =
      (rbAdvance c.tcb.inbuf (c.tcb.readSeq + BitVec.ofNat 32 d.length)).shift σ.rcv :=
    rbAdvance_shift
  have hacked : (c.shift σ).tcb.lastAcked - 1 = c.tcb.lastAcked - 1 + σ.acked :=
    add_sub_right_comm ..
  have hleft : rbLeft (c.shift σ).tcb.inbuf = rbLeft c.tcb.inbuf := rfl
  simp only [Function.comp_apply, hseq, hadvance, hacked, hleft]
  by_cases hblocked : rbLeft c.tcb.inbuf = 0
  · rw [if_pos hblocked, if_pos hblocked, ← markForIfWrite_shift]
    rfl
  · rw [if_neg hblocked, if_neg hblocked]
    rfl

theorem killMap_shift (σ : Offsets) (c : Conn) :
    killMap (c.shift σ) = (killMap c).map (Conn.shift σ) := by
  rw [killMap, killMap, Option.map_map]
  rfl

theorem outputSpace_shift (σ : Offsets) (c : Conn) (space : ℤ) :
    outputSpace (c.shift σ) space = (outputSpace c space).map (Conn.shift σ) := by
  rw [outputSpace, outputSpace, Option.map_map]
  refine congrArg (fun f => Option.map f c.map) (funext fun m => ?_)
  rw [Function.comp_apply, apply_ite (Conn.shift σ)]
  rfl

theorem canRead_shift (σ : Offsets) (c : Conn) :
    canRead (c.shift σ) = (canRead c).map (Conn.shift σ) := by
  rw [canRead, canRead, Option.map_map]
  refine congrArg (fun f => Option.map f c.map) (funext fun m => ?_)
  rw [Function.comp_apply, apply_ite (Conn.shift σ)]
  rfl

theorem cbOutputBufferSpace_shift (σ : Offsets) (c : Conn) (space : ℤ) :
    cbOutputBufferSpace (c.shift σ) space = (cbOutputBufferSpace c space).map (Conn.shift σ) := by
  have hcb : (c.shift σ).tcb.cb = c.tcb.cb := rfl
  rw [cbOutputBufferSpace, cbOutputBufferSpace, hcb]
  split
  · rfl
  · exact outputSpace_shift σ c space
  · rfl

theorem cbDataAvailable_shift (σ : Offsets) (c : Conn) :
    cbDataAvailable (c.shift σ) = (cbDataAvailable c).map (Conn.shift σ) := by
  have hcb : (c.shift σ).tcb.cb = c.tcb.cb := rfl
  rw [cbDataAvailable, cbDataAvailable, hcb]
  split
  · rfl
  · exact canRead_shift σ c
  · rfl

theorem cbClosing_shift (σ : Offsets) (c : Conn) :
    cbClosing (c.shift σ) = (cbClosing c).map (Conn.shift σ) := by
  have hcb : (c.shift σ).tcb.cb = c.tcb.cb := rfl
  rw [cbClosing, cbClosing, hcb]
  split
  · rfl
  · exact killMap_shift σ c
  · rfl

/-- The offsets after `tcp_close`. -/
def Offsets.closed (σ : Offsets) (c : Conn) (hard : Bool) : Offsets :=
  if hard = true ∨ c.tcb.state = .synRecvd then σ.sent else σ

theorem tcpClose_shift (σ : Offsets) (c : Conn) (hard : Bool) :
    tcpClose (c.shift σ) hard = (tcpClose c hard).shift (σ.closed c hard) := by
  rw [Offsets.closed]
  split
  · next h => exact tcpClose_shift_reset h
  · next h => exact tcpClose_shift_fin h

theorem closeBoth_shift (σ : Offsets) (c : Conn) :
    closeBoth (c.shift σ) = (closeBoth c).map (Conn.shift (σ.closed c false)) := by
  rw [closeBoth, closeBoth, tcpClose_shift, killMap_shift]

theorem Suits.closedBoth {c' : Conn} (h : Suits σ c)
    (hattached : c.tcb.state = .synRecvd ∨ c.tcb.state = .established)
    (hclose : ClosedBoth c c') : Suits (σ.closed c false) c' := by
  rw [Offsets.closed]
  cases hclose with
  | reset hsyn =>
      rw [if_pos (.inr hsyn)]
      exact h.of_sent (List.append_ne_nil_of_right_ne_nil _ nofun) rfl rfl (.inr ⟨rfl, id⟩)
  | fin hsyn =>
      rw [if_neg (by simpa using hsyn)]
      refine h.of_eq rfl fun hun => .inl ?_
      rcases hun with htimer | hwait
      · exact htimer
      · rcases hattached with hs | hs <;> rw [hwait] at hs <;> cases hs

/-- A callback of the relay does the same to the shifted connection, which has become `c'`. -/
def Moves (σ : Offsets) (c' : Conn) (b : Bool) (res : Option (Conn × Bool)) : Prop :=
  ∃ σ', σ'.snd = σ.snd ∧ σ'.rcv = σ.rcv ∧ Suits σ' c' ∧ res = some (c'.shift σ', b)

theorem Moves.quiet {b : Bool} (h : Suits σ c) : Moves σ c b (some (c.shift σ, b)) :=
  ⟨σ, rfl, rfl, h, rfl⟩

theorem Moves.closeBoth {b : Bool} {c' : Conn} {m : Option TcpMap} (h : Suits σ c)
    (hattached : c.tcb.state = .synRecvd ∨ c.tcb.state = .established)
    (hclose : (Ptrtd.closeBoth { c with map := m }).map (fun c => (c, false)) = some (c', b)) :
    Moves σ c' b
      ((Ptrtd.closeBoth { c.shift σ with map := m }).map fun c => (c, false)) := by
  obtain ⟨a, ha, heq⟩ := Option.map_eq_some_iff.mp hclose
  obtain ⟨rfl, rfl⟩ := Prod.mk.inj heq
  have hm : Suits σ { c with map := m } := h.of_eq rfl id
  have hsuits := hm.closedBoth hattached (closeBoth_effect ha)
  have hshift := closeBoth_shift σ { c with map := m }
  refine ⟨σ.closed c false, ?_, ?_, hsuits, ?_⟩
  · rw [Offsets.closed]
    split <;> rfl
  · rw [Offsets.closed]
    split <;> rfl
  · rw [ha] at hshift
    exact congrArg (Option.map fun c => (c, false)) hshift

theorem Suits.tcpSend {c' : Conn} {d : List Uchar} (h : Suits σ c) (hsend : tcpSend c d = some c') :
    Suits σ c' := by
  obtain ⟨r, k, l, n, e, -, rfl⟩ := tcpSend_eq hsend
  exact h.of_eq rfl id

theorem Suits.tcpRead {c' : Conn} {len : ℤ} {d : List Uchar} (h : Suits σ c)
    (hread : tcpRead c len = some (c', d)) : Suits σ c' := by
  obtain ⟨l, n, e, a, -, rfl⟩ := tcpRead_eq hread
  exact h.of_eq rfl id

theorem handleFdCanRead_shift {c' : Conn} {b : Bool} {r : ReadResult} (hsuits : Suits σ c)
    (hattached : c.map.isSome = true → c.tcb.state = .synRecvd ∨ c.tcb.state = .established)
    (h : handleFdCanRead c r = some (c', b)) : Moves σ c' b (handleFdCanRead (c.shift σ) r) := by
  obtain ⟨m, hm, h⟩ := Option.bind_eq_some_iff.mp h
  have hm' : (c.shift σ).map = some m := hm
  have hstate := hattached (by rw [hm]; rfl)
  have hspace : ∀ a : Conn, tcpGetOutputSpace (a.shift σ).tcb = tcpGetOutputSpace a.tcb :=
    fun _ => rfl
  rw [handleFdCanRead, hm', Option.bind_some, hspace]
  dsimp only at h ⊢
  generalize hlen : (if tcpGetOutputSpace c.tcb < 0 ∨ tcpGetOutputSpace c.tcb > tbSize then
    (tbSize : ℤ) else tcpGetOutputSpace c.tcb) = len at h ⊢
  by_cases hzero : len = 0
  · rw [if_pos hzero] at h ⊢
    obtain ⟨rfl, rfl⟩ := Prod.mk.inj (Option.some.inj h)
    exact .quiet hsuits
  · rw [if_neg hzero] at h ⊢
    cases r with
    | again =>
        obtain ⟨rfl, rfl⟩ := Prod.mk.inj (Option.some.inj h)
        exact .quiet hsuits
    | eof => exact .closeBoth hsuits hstate h
    | error => exact .closeBoth hsuits hstate h
    | data d =>
        dsimp only at h ⊢
        by_cases hd : 0 < d.length ∧ (d.length : ℤ) ≤ len
        · rw [if_pos hd] at h ⊢
          obtain ⟨a, ha, h⟩ := Option.bind_eq_some_iff.mp h
          have hsuits' := hsuits.tcpSend ha
          rw [tcpSend_shift, ha, Option.map_some, Option.bind_some, hspace]
          by_cases hfull : tcpGetOutputSpace a.tcb = 0
          · rw [if_pos hfull] at h ⊢
            obtain ⟨rfl, rfl⟩ := Prod.mk.inj (Option.some.inj h)
            exact .quiet (hsuits'.of_eq rfl id)
          · rw [if_neg hfull] at h ⊢
            obtain ⟨rfl, rfl⟩ := Prod.mk.inj (Option.some.inj h)
            exact .quiet hsuits'
        · rw [if_neg hd] at h
          cases h

/-- Closing the map after a failed `write`. -/
theorem Moves.closeMap {b : Bool} {c' : Conn} (h : Suits σ c)
    (hattached : c.tcb.state = .synRecvd ∨ c.tcb.state = .established)
    (hclose : (c.map.bind fun m => (Ptrtd.closeBoth
      { c with map := some { m with eFdWrite := none } }).map fun c => (c, false)) = some (c', b)) :
    Moves σ c' b ((c.shift σ).map.bind fun m => (Ptrtd.closeBoth
      { c.shift σ with map := some { m with eFdWrite := none } }).map fun c => (c, false)) := by
  obtain ⟨m, hm, hclose⟩ := Option.bind_eq_some_iff.mp hclose
  have hm' : (c.shift σ).map = some m := hm
  rw [hm', Option.bind_some]
  exact .closeBoth h hattached hclose

theorem handleFdCanWrite_shift {c' : Conn} {b : Bool} {r : WriteResult} (hsuits : Suits σ c)
    (hattached : c.map.isSome = true → c.tcb.state = .synRecvd ∨ c.tcb.state = .established)
    (h : handleFdCanWrite c r = some (c', b)) : Moves σ c' b (handleFdCanWrite (c.shift σ) r) := by
  obtain ⟨m, hm, h⟩ := Option.bind_eq_some_iff.mp h
  have hm' : (c.shift σ).map = some m := hm
  have hstate := hattached (by rw [hm]; rfl)
  rw [handleFdCanWrite, hm', Option.bind_some, tcpRead_shift]
  obtain ⟨⟨a, d⟩, ha, h⟩ := Option.bind_eq_some_iff.mp h
  rw [ha, Option.map_some, Option.bind_some]
  have hread := hsuits.tcpRead ha
  have hkept : a.tcb.state = c.tcb.state := by
    obtain ⟨l, n, e, la, -, rfl⟩ := tcpRead_eq ha
    rfl
  -- the map is updated when everything has been read
  obtain ⟨x, hx⟩ : ∃ x, x = (if d.length < tbSize then
    { a with map := some { m with eFdWrite := none } } else a) := ⟨_, rfl⟩
  have hx' : (if d.length < tbSize then
      { a.shift σ with map := some { m with eFdWrite := none } } else a.shift σ) = x.shift σ := by
    rw [hx]
    split <;> rfl
  have hsuits' : Suits σ x := by
    rw [hx]
    split
    · exact hread.of_eq rfl id
    · exact hread
  have hstate' : x.tcb.state = .synRecvd ∨ x.tcb.state = .established := by
    have hsame : x.tcb.state = a.tcb.state := by
      rw [hx]
      split <;> rfl
    rw [hsame, hkept]
    exact hstate
  dsimp only at h ⊢
  rw [← hx] at h
  rw [hx']
  cases r with
  | again =>
      obtain ⟨rfl, rfl⟩ := Prod.mk.inj (Option.some.inj h)
      exact .quiet hsuits'
  | error => exact .closeMap hsuits' hstate' h
  | wrote n =>
      dsimp only at h ⊢
      by_cases hn : n ≤ d.length
      · rw [if_pos hn] at h ⊢
        obtain ⟨y, hy⟩ : ∃ y : Conn, y =
          { x with trace := { x.trace with relayed := x.trace.relayed ++ d.take n } } := ⟨_, rfl⟩
        have hsuits'' : Suits σ y := by
          rw [hy]
          exact hsuits'.of_eq rfl id
        have hstate'' : y.tcb.state = .synRecvd ∨ y.tcb.state = .established := by
          rw [hy]
          exact hstate'
        have hy' : { x.shift σ with
            trace := { (x.shift σ).trace with
              relayed := (x.shift σ).trace.relayed ++ d.take n } } = y.shift σ := by
          rw [hy]
          rfl
        rw [hy']
        subst hy
        by_cases hzero : n = 0
        · rw [if_pos hzero] at h ⊢
          exact .closeMap hsuits'' hstate'' h
        · rw [if_neg hzero] at h ⊢
          obtain ⟨rfl, rfl⟩ := Prod.mk.inj (Option.some.inj h)
          exact .quiet hsuits''
      · rw [if_neg hn] at h
        cases h

theorem handleFdDidConnect_shift {c' : Conn} {b ok : Bool} (hsuits : Suits σ c)
    (hattached : c.map.isSome = true → c.tcb.state = .synRecvd ∨ c.tcb.state = .established)
    (h : handleFdDidConnect c ok = some (c', b)) :
    Moves σ c' b (handleFdDidConnect (c.shift σ) ok) := by
  obtain ⟨m, hm, h⟩ := Option.bind_eq_some_iff.mp h
  have hm' : (c.shift σ).map = some m := hm
  have hstate := hattached (by rw [hm]; rfl)
  rw [handleFdDidConnect, hm', Option.bind_some]
  cases ok with
  | false => exact .closeBoth hsuits hstate h
  | true =>
      obtain ⟨rfl, rfl⟩ := Prod.mk.inj (Option.some.inj h)
      have haccept := tcpAccept_shift σ { c with map := some { m with eFdWrite := none } }
      obtain ⟨l, n, e, -, heq⟩ := tcpAccept_eq { c with map := some { m with eFdWrite := none } }
      refine ⟨σ, rfl, rfl, ?_, congrArg (fun c => some (c, false)) haccept⟩
      rw [heq]
      exact hsuits.of_eq rfl id

/-! ## Incoming segments -/

theorem handleRst_shift (σ : Offsets) (c : Conn) :
    handleRst (c.shift σ) = (handleRst c).map (Conn.shift σ) := by
  rw [handleRst, handleRst, cbClosing_shift, Option.map_map, Option.map_map]
  rfl

/-- The comparisons of the block for ACK. -/
def SameAck (k : Uint) (t : Tcb) (ack : Uint) : Prop :=
  Same k t.sndUna ack ∧
    (t.sndUna < ack →
      (t.sndUna + k ≤ t.rttMark + k ∧ t.rttMark + k < ack + k ↔
        t.sndUna ≤ t.rttMark ∧ t.rttMark < ack) ∧
      Same k t.sndNxt ack ∧
      (t.eTimeout.isSome = true → retransmits t.state = true → Same k ack t.timeoutMark))

instance (k : Uint) (t : Tcb) (ack : Uint) : Decidable (SameAck k t ack) :=
  inferInstanceAs (Decidable (_ ∧ (_ → _ ∧ _ ∧ (_ → _ → _))))

theorem ackUna_shift {ack : Uint} (h : SameAck σ.snd t ack) (hnew : t.sndUna < ack) :
    ackUna (t.shift σ) (ack + σ.snd) now = (ackUna t ack now).shift σ := by
  obtain ⟨-, h⟩ := h
  obtain ⟨hrtt, hnxt, -⟩ := h hnew
  have hsample : (if (t.shift σ).sndUna ≤ (t.shift σ).rttMark ∧ ack + σ.snd > (t.shift σ).rttMark
      then sampleRtt (t.shift σ) now else t.shift σ) =
      (if t.sndUna ≤ t.rttMark ∧ ack > t.rttMark then sampleRtt t now else t).shift σ := by
    by_cases hs : t.sndUna ≤ t.rttMark ∧ ack > t.rttMark
    · rw [if_pos hs]
      exact if_pos (hrtt.mpr hs)
    · rw [if_neg hs]
      exact if_neg (mt hrtt.mp hs)
  rw [ackUna, ackUna, hsample]
  obtain ⟨x, hx⟩ : ∃ x, x = (if t.sndUna ≤ t.rttMark ∧ ack > t.rttMark
      then sampleRtt t now else t) :=
    ⟨_, rfl⟩
  have hx' : x.sndNxt = t.sndNxt := by
    rw [hx]
    split <;> rfl
  rw [← hx]
  have hnext : (if ack + σ.snd > (x.shift σ).sndNxt then ack + σ.snd else (x.shift σ).sndNxt) =
      (if ack > x.sndNxt then ack else x.sndNxt) + σ.snd := by
    rw [← hx'] at hnxt
    by_cases hlt : ack > x.sndNxt
    · rw [if_pos hlt]
      exact if_pos (hnxt.mpr hlt)
    · rw [if_neg hlt]
      exact if_neg (mt hnxt.mp hlt)
  rw [hnext]
  rfl

theorem ackTimer_shift {ack : Uint} (hmark : c.tcb.eTimeout.isSome = true →
      σ.mark = σ.snd ∧ Same σ.snd ack c.tcb.timeoutMark)
    (hflight : Same σ.snd c.tcb.sndUna c.tcb.sndNxt) :
    ackTimer (c.shift σ) (ack + σ.snd) now = (ackTimer c ack now).shift σ := by
  have htimer : (c.shift σ).tcb.eTimeout = c.tcb.eTimeout := rfl
  rw [ackTimer, ackTimer, htimer]
  cases he : c.tcb.eTimeout with
  | none => rfl
  | some e =>
      obtain ⟨heq, hsame⟩ := hmark (by rw [he]; rfl)
      have harmed : σ.armed = σ := congrArg (fun m => { σ with mark := m }) heq.symm
      have hdue : ack + σ.snd ≥ (c.shift σ).tcb.timeoutMark ↔ ack ≥ c.tcb.timeoutMark := by
        have hle := hsame.le
        rw [← heq] at hle ⊢
        exact hle
      dsimp only
      by_cases hack : ack ≥ c.tcb.timeoutMark
      · rw [if_pos hack, if_pos (hdue.mpr hack)]
        have hiff : (c.shift σ).tcb.sndUna < (c.shift σ).tcb.sndNxt ↔
            c.tcb.sndUna < c.tcb.sndNxt := hflight
        have hset := setTimeout_shift σ { c with ev := removeTimeEvent c.ev e } now
        rw [harmed] at hset
        by_cases hmore : c.tcb.sndUna < c.tcb.sndNxt
        · rw [if_pos hmore, if_pos (hiff.mpr hmore)]
          exact congrArg (fun a : Conn =>
            { a with tcb := { a.tcb with sndCwnd := a.tcb.sndCwnd + a.tcb.mss } }) hset
        · rw [if_neg hmore, if_neg (mt hiff.mp hmore)]
          rfl
      · rw [if_neg hack, if_neg (mt hdue.mp hack)]

theorem ackUna_state (t : Tcb) (ack : Uint) (now : Timeval) :
    (ackUna t ack now).state = t.state := by
  obtain ⟨r, d, heq⟩ := ackUna_eq t ack now
  rw [heq]

/-- The connection with a new ACK number, before the buffer and the timer follow. -/
def ackConn (c : Conn) (ack : Uint) (now : Timeval) : Conn :=
  { c with tcb := ackUna c.tcb ack now }

def freeConn (c : Conn) (ack : Uint) : Conn :=
  { c with tcb := { c.tcb with outbuf := rbAdvance c.tcb.outbuf ack } }

theorem freeConn_shift (σ : Offsets) (c : Conn) (ack : Uint) :
    freeConn (c.shift σ) (ack + σ.snd) = (freeConn c ack).shift σ := by
  have hbuf : rbAdvance (c.shift σ).tcb.outbuf (ack + σ.snd) =
      (rbAdvance c.tcb.outbuf ack).shift σ.snd := rbAdvance_shift
  rw [freeConn, hbuf]
  rfl

theorem handleNewAck_established {ack : Uint} (h : c.tcb.state = .established) :
    handleNewAck c ack now = (cbOutputBufferSpace (freeConn (ackConn c ack now) ack)
      (rbLeft (freeConn (ackConn c ack now) ack).tcb.outbuf)).map fun c => ackTimer c ack now := by
  simp only [handleNewAck, freeConn, ackConn, ackUna_state, h]

theorem handleNewAck_timed {ack : Uint}
    (h : c.tcb.state = .finWait1 ∨ c.tcb.state = .closing ∨ c.tcb.state = .lastAck) :
    handleNewAck c ack now = some (ackTimer (ackConn c ack now) ack now) := by
  rcases h with h | h | h <;>
    · simp only [handleNewAck, ackUna_state, h]
      rfl

theorem handleNewAck_other {ack : Uint} (h : retransmits c.tcb.state = false) :
    handleNewAck c ack now = some (ackConn c ack now) := by
  simp only [handleNewAck, ackUna_state]
  cases hs : c.tcb.state with
  | established | finWait1 | closing | lastAck => simp [hs, retransmits] at h
  | closed | listen | synSent | synRecvd | finWait2 | closeWait | timeWait => rfl

theorem handleNewAck_shift {ack : Uint} (h : SameAck σ.snd c.tcb ack) (hnew : c.tcb.sndUna < ack)
    (hmark : c.tcb.eTimeout.isSome = true → retransmits c.tcb.state = true → σ.mark = σ.snd) :
    handleNewAck (c.shift σ) (ack + σ.snd) now =
      (handleNewAck c ack now).map (Conn.shift σ) := by
  have hconn : ackConn (c.shift σ) (ack + σ.snd) now = (ackConn c ack now).shift σ :=
    congrArg (fun t => { c.shift σ with tcb := t }) (ackUna_shift h hnew)
  obtain ⟨-, hsame⟩ := h
  obtain ⟨-, hnxt, htimer⟩ := hsame hnew
  obtain ⟨r, d, heq⟩ := ackUna_eq c.tcb ack now
  have hstate : (c.shift σ).tcb.state = c.tcb.state := rfl
  have he : (ackUna c.tcb ack now).eTimeout = c.tcb.eTimeout := by rw [heq]
  have hk : (ackUna c.tcb ack now).timeoutMark = c.tcb.timeoutMark := by rw [heq]
  have hready : ∀ x : Conn, x.tcb.eTimeout = c.tcb.eTimeout →
      x.tcb.timeoutMark = c.tcb.timeoutMark →
      x.tcb.sndUna = (ackConn c ack now).tcb.sndUna →
      x.tcb.sndNxt = (ackConn c ack now).tcb.sndNxt → retransmits c.tcb.state = true →
      ackTimer (x.shift σ) (ack + σ.snd) now = (ackTimer x ack now).shift σ := by
    intro x he hk huna hnxt' hs
    rw [ackConn, heq] at huna hnxt'
    refine ackTimer_shift (fun hsome => ?_) ?_
    · rw [he] at hsome
      rw [hk]
      exact ⟨hmark hsome hs, htimer hsome hs⟩
    · rw [huna, hnxt']
      dsimp only
      split
      · exact .refl _ _
      · exact hnxt.symm
  by_cases hs : retransmits c.tcb.state = true
  · by_cases hest : c.tcb.state = .established
    · rw [handleNewAck_established hest, handleNewAck_established (hstate.trans hest), hconn,
        freeConn_shift]
      have hspace := cbOutputBufferSpace_shift σ (freeConn (ackConn c ack now) ack)
        (rbLeft (freeConn (ackConn c ack now) ack).tcb.outbuf)
      refine (congrArg (Option.map fun c => ackTimer c (ack + σ.snd) now) hspace).trans ?_
      rw [Option.map_map, Option.map_map]
      cases hcb : cbOutputBufferSpace (freeConn (ackConn c ack now) ack)
          (rbLeft (freeConn (ackConn c ack now) ack).tcb.outbuf) with
      | none => rfl
      | some y =>
          obtain ⟨-, m, l, n, -, rfl⟩ := cbOutputBufferSpace_change hcb
          exact congrArg some (hready _ he hk rfl rfl hs)
    · have hclosing : c.tcb.state = .finWait1 ∨ c.tcb.state = .closing ∨
        c.tcb.state = .lastAck := by
        revert hs hest
        cases c.tcb.state <;> simp [retransmits]
      rw [handleNewAck_timed hclosing, handleNewAck_timed (c := c.shift σ) hclosing, hconn]
      exact congrArg some (hready _ he hk rfl rfl hs)
  · rw [Bool.not_eq_true] at hs
    rw [handleNewAck_other hs, handleNewAck_other (c := c.shift σ) hs, hconn]
    rfl

theorem handleAllAcked_shift (σ : Offsets) (c : Conn) (now : Timeval) :
    handleAllAcked (c.shift σ) now = (handleAllAcked c now).map (Flow.shift σ) := by
  have hstate : (c.shift σ).tcb.state = c.tcb.state := rfl
  have havail : rbAvail (c.shift σ).tcb.outbuf (c.shift σ).tcb.sndNxt =
      rbAvail c.tcb.outbuf c.tcb.sndNxt := avail_shift
  rw [handleAllAcked, handleAllAcked, hstate, havail]
  split
  · have hspace := cbOutputBufferSpace_shift σ
      { c with tcb := { c.tcb with state := .established } } (rbLeft c.tcb.outbuf)
    refine (congrArg (Option.map Flow.next) hspace).trans ?_
    rw [Option.map_map, Option.map_map]
    rfl
  · rfl
  · split <;> rfl
  · split <;> rfl
  · rfl

theorem handleAck_shift (h : s.isAck = true → SameAck σ.snd c.tcb s.ack)
    (hmark : c.tcb.eTimeout.isSome = true → retransmits c.tcb.state = true → σ.mark = σ.snd) :
    handleAck (c.shift σ) (s.shift σ.rcv σ.snd) now = (handleAck c s now).map (Flow.shift σ) := by
  have hflag : (s.shift σ.rcv σ.snd).isAck = s.isAck := rfl
  rw [handleAck, handleAck, hflag]
  by_cases hack : s.isAck = true
  · rw [if_pos hack, if_pos hack]
    have hsame := h hack
    have hnew : (if (s.shift σ.rcv σ.snd).ack > (c.shift σ).tcb.sndUna then
        handleNewAck (c.shift σ) (s.shift σ.rcv σ.snd).ack now else some (c.shift σ)) =
        (if s.ack > c.tcb.sndUna then handleNewAck c s.ack now else some c).map (Conn.shift σ) := by
      by_cases hlt : s.ack > c.tcb.sndUna
      · rw [if_pos hlt]
        exact (if_pos (hsame.1.mpr hlt)).trans (handleNewAck_shift hsame hlt hmark)
      · rw [if_neg hlt]
        exact if_neg (mt hsame.1.mp hlt)
    rw [hnew]
    cases (if s.ack > c.tcb.sndUna then handleNewAck c s.ack now else some c) with
    | none => rfl
    | some a =>
        rw [Option.map_some, Option.bind_some, Option.bind_some]
        have heq : (a.shift σ).tcb.sndUna = (a.shift σ).tcb.sndNxt ↔ a.tcb.sndUna = a.tcb.sndNxt :=
          add_left_inj σ.snd
        by_cases hflight : a.tcb.sndUna = a.tcb.sndNxt
        · rw [if_pos hflight, if_pos (heq.mpr hflight)]
          exact handleAllAcked_shift σ a now
        · rw [if_neg hflight, if_neg (mt heq.mp hflight)]
          rfl
  · rw [if_neg hack, if_neg hack]
    rfl

theorem handleOld_shift (σ : Offsets) (c : Conn) :
    handleOld (c.shift σ) = (handleOld c).shift σ := by
  have hstate : (c.shift σ).tcb.state = c.tcb.state := rfl
  have hacked : (c.shift σ).tcb.lastAcked - 1 = c.tcb.lastAcked - 1 + σ.acked :=
    add_sub_right_comm ..
  rw [handleOld, handleOld, hstate, hacked, apply_ite (Conn.shift σ), ← markForIfWrite_shift]
  rfl

theorem handleWindow_shift (σ : Offsets) (c : Conn) (s : Segment) (j k : Uint) :
    handleWindow (c.shift σ) (s.shift j k) = (handleWindow c s).shift σ := by
  obtain ⟨t, ht⟩ : ∃ t, t = { c.tcb with sndWnd := s.wnd.setWidth 32 } := ⟨_, rfl⟩
  have ht' : { (c.shift σ).tcb with sndWnd := (s.shift j k).wnd.setWidth 32 } = t.shift σ := by
    rw [ht]
    rfl
  simp only [handleWindow, ht', ← ht, windowUpdate_shift, windowSize_shift]
  split
  · split
    · rw [← markForIfWrite_shift]
      rfl
    · rfl
  · rfl

theorem recvPayload_shift (σ : Offsets) (c : Conn) (s : Segment) (j k : Uint) :
    recvPayload (c.shift σ) (s.shift j k) = (recvPayload c s).map (Conn.shift σ) := by
  have hdata : (s.shift j k).data = s.data := rfl
  have hnxt : (c.shift σ).tcb.rcvNxt + BitVec.ofNat 32 s.data.length =
      c.tcb.rcvNxt + BitVec.ofNat 32 s.data.length + σ.rcv := add_right_comm ..
  obtain ⟨a, ha⟩ : ∃ a, a = markForIfWrite
      { c with tcb := { c.tcb with rcvNxt := c.tcb.rcvNxt + BitVec.ofNat 32 s.data.length } } :=
    ⟨_, rfl⟩
  have ha' : markForIfWrite { c.shift σ with
      tcb := { (c.shift σ).tcb with
        rcvNxt := c.tcb.rcvNxt + BitVec.ofNat 32 s.data.length + σ.rcv } } = a.shift σ := by
    rw [ha, ← markForIfWrite_shift]
    rfl
  have hcb : (a.shift σ).tcb.cb = a.tcb.cb := rfl
  have hwrite : rbWrite (a.shift σ).tcb.inbuf s.data =
      (rbWrite a.tcb.inbuf s.data).map (shiftStored σ.rcv) := rbWrite_shift
  rw [recvPayload, recvPayload, hdata, hnxt, ha', ← ha]
  by_cases hlen : s.data.length > 0
  · rw [if_pos hlen, if_pos hlen]
    dsimp only
    rw [hcb]
    by_cases hsome : a.tcb.cb.isSome = true
    · rw [if_pos hsome, if_pos hsome, hwrite]
      cases rbWrite a.tcb.inbuf s.data with
      | none => rfl
      | some r =>
          exact cbDataAvailable_shift σ
            { a with
              tcb := { a.tcb with inbuf := r.1, rcvWnd := BitVec.ofInt 32 (rbLeft r.1) }
              trace := { a.trace with stored := a.trace.stored ++ s.data.take r.2 } }
    · rw [if_neg hsome, if_neg hsome]
      rfl
  · rw [if_neg hlen, if_neg hlen]
    rfl

theorem recvFin_shift (σ : Offsets) (c : Conn) (s : Segment) (j k : Uint) :
    recvFin (c.shift σ) (s.shift j k) = (recvFin c s).shift σ := by
  have hfin : (s.shift j k).isFin = s.isFin := rfl
  have hnxt : (c.shift σ).tcb.rcvNxt + 1 = c.tcb.rcvNxt + 1 + σ.rcv := add_right_comm ..
  rw [recvFin, recvFin, hfin, hnxt, apply_ite (Conn.shift σ), ← markForIfWrite_shift]
  rfl

theorem tcpRecvData_shift (σ : Offsets) (c : Conn) (s : Segment) (j k : Uint) :
    tcpRecvData (c.shift σ) (s.shift j k) =
      (tcpRecvData c s).map fun r => (r.1.shift σ, r.2) := by
  rw [tcpRecvData, tcpRecvData, recvPayload_shift, Option.map_map, Option.map_map]
  refine congrArg (fun f => Option.map f _) (funext fun a => ?_)
  exact congrArg (fun c => (c, s.isFin)) (recvFin_shift σ a s j k)

theorem tcpRemoteClose_shift (σ : Offsets) (hstate : c.tcb.state = .closeWait) :
    tcpRemoteClose (c.shift σ) = (tcpRemoteClose c).map (Conn.shift σ) := by
  rw [tcpRemoteClose, tcpRemoteClose, cbClosing_shift, Option.map_map, Option.map_map]
  cases ha : cbClosing c with
  | none => rfl
  | some a =>
      have hsyn : ¬(false = true ∨ a.tcb.state = .synRecvd) := by
        have hsame : a.tcb.state = c.tcb.state := by
          rcases cbClosing_cases ha with ⟨rfl, -⟩ | ⟨-, hkill⟩
          · rfl
          · obtain ⟨-, l, b, rfl⟩ := killMap_eq hkill
            rfl
        rw [hsame, hstate]
        simp
      exact congrArg some (tcpClose_shift_fin hsyn)

theorem handleData_shift (σ : Offsets) (c : Conn) (s : Segment) (now : Timeval) (j k : Uint) :
    handleData (c.shift σ) (s.shift j k) now = (handleData c s now).map (Conn.shift σ) := by
  have hstate : (c.shift σ).tcb.state = c.tcb.state := rfl
  rw [handleData, handleData, hstate, tcpRecvData_shift]
  split
  · rw [Option.map_map, Option.map_map]
    refine congrArg (fun f => Option.map f _) (funext ?_)
    rintro ⟨a, fin⟩
    cases fin <;> rfl
  · rw [Option.map_map, Option.map_map]
    refine congrArg (fun f => Option.map f _) (funext ?_)
    rintro ⟨a, fin⟩
    cases fin <;> rfl
  · cases tcpRecvData c s with
    | none => rfl
    | some r =>
        obtain ⟨a, fin⟩ := r
        cases fin with
        | false => rfl
        | true =>
            have hwait : { a with tcb := { a.tcb with state := .closeWait } }.tcb.state =
                .closeWait := rfl
            exact tcpRemoteClose_shift σ hwait
  · rfl

end Ptrtd
