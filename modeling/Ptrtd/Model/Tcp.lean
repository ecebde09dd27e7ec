import Ptrtd.Model.Tcb

/-! # Sending, timers and closing (`tcp.c`)

Everything of `tcp.c` that does not call back into the application. -/

namespace Ptrtd

/-- `next_isn`, from the number of connections made before. -/
def nextIsn (isn : Uint) : Uint := (isn + 1) <<< 16

/-- `make_tcp_hdr`: the header of a segment to be sent, and the block with `last_acked` set. -/
def makeTcpHdr (t : Tcb) (data : List Uchar) (flags : BitVec 6) : Tcb × Segment :=
  ({ t with lastAcked := t.rcvNxt },
    { seq := t.sndNxt, ack := t.rcvNxt, flags, wnd := t.rcvWnd.setWidth 16, data })

/-- `mark_for_if_write`: schedule `do_tcb_write`, unless it is scheduled. -/
def markForIfWrite (c : Conn) : Conn :=
  if c.tcb.eTcbSend.isSome then c
  else
    { c with
      ev := addAlwaysEvent c.ev .doTcbWrite (.tcb c.self)
      tcb := { c.tcb with eTcbSend := some c.ev.next } }

def tcpAccept (c : Conn) : Conn :=
  markForIfWrite { c with trace := { c.trace with acceptCalled := true } }

/-- The callback that frees a block at the end of `TIME_WAIT`. -/
def tcpRemove (c : Conn) : Conn :=
  tcbDelete { c with ev := removeTime? (removeAlways? c.ev c.tcb.eTcbSend) c.tcb.eTimeout }

def windowSize (t : Tcb) : ℤ := (t.sndMax - t.sndNxt).toInt

/-- The congestion window that `window_update` settles on. -/
def updatedCwnd (t : Tcb) : Uint :=
  let cwnd := if t.sndCwnd = 0 then t.mss else t.sndCwnd
  if cwnd > t.sndWnd then t.sndWnd else cwnd

/-- `window_update`; its value is the `windowSize` of the result. -/
def windowUpdate (t : Tcb) : Tcb :=
  { t with sndCwnd := updatedCwnd t, sndMax := t.sndUna + updatedCwnd t }

/-- The retransmission timer callback: go back to the oldest unacknowledged byte. -/
def tcpTimeout (c : Conn) : Conn :=
  markForIfWrite
    { c with
      tcb := windowUpdate
        { c.tcb with
          eTimeout := none
          sndNxt := c.tcb.sndUna
          rttMark := c.tcb.sndUna - 1
          sndCwnd := 0 } }

def tcpSendRst (c : Conn) : Conn :=
  let (t, s) := makeTcpHdr c.tcb [] 0x14
  sendPkt { c with tcb := t } s

def tcpSendSyn (c : Conn) : Conn :=
  let (t, s) := makeTcpHdr c.tcb [] 0x12
  sendPkt { c with tcb := { t with sndNxt := t.sndNxt + 1 } } s

/-- `tcp_close`: a reset for a hard close or before the handshake is over, else a FIN is
queued behind the data. -/
def tcpClose (c : Conn) (hard : Bool) : Conn :=
  if hard ∨ c.tcb.state = .synRecvd then
    let c := tcpSendRst c
    tcbDelete { c with ev := removeTime? (removeAlways? c.ev c.tcb.eTcbSend) c.tcb.eTimeout }
  else
    markForIfWrite
      { c with
        tcb := { c.tcb with
          cb := none
          rcvWnd := 1000
          state := if c.tcb.state = .established then .finWait1 else .lastAck } }

/-- The delay `set_timeout` chooses, in milliseconds. -/
def timeoutDelay (t : Tcb) : ℤ :=
  let m := t.srtt + 4 * t.sdev
  if m < 500 then 500 else if m > 30000 then 30000 else m

def setTimeout (c : Conn) (now : Timeval) : Conn :=
  { c with
    ev := addTimeEvent c.ev (timeFuture now (timeoutDelay c.tcb)) .tcpTimeout (.tcb c.self)
    tcb := { c.tcb with eTimeout := some c.ev.next, timeoutMark := c.tcb.sndNxt } }

/-- The states in which our FIN is due once the data is out. -/
def isClosingState : TcpState → Bool
  | .finWait1 | .closing | .lastAck => true
  | _ => false

/-- The data of the next segment: what `tcp_send_and_ack` reads from `outbuf`. -/
def sendData (t : Tcb) : Option (List Uchar) :=
  let wnd := windowSize t
  let avail := rbAvail t.outbuf t.sndNxt
  if wnd > 0 ∧ avail > 0 then
    let len := if avail > t.mss.toNat then (t.mss.toNat : ℤ) else avail
    rbRead t.outbuf t.sndNxt (if len > wnd then wnd else len)
  else some []

/-- Whether the segment pushes: it carries data and empties `outbuf`. -/
def pushDue (t : Tcb) (len : ℕ) : Bool :=
  windowSize t > 0 && rbAvail t.outbuf t.sndNxt > 0 &&
    rbAvail t.outbuf (t.sndNxt + BitVec.ofNat 32 len) = 0

/-- Whether the segment carries our FIN: we are closing, the data is out and the window
has room. -/
def finDue (t : Tcb) (len : ℕ) : Bool :=
  windowSize t > len && windowSize t > 0 &&
    rbAvail t.outbuf (t.sndNxt + BitVec.ofNat 32 len) = 0 && isClosingState t.state

/-- The flags `tcp_send_and_ack` sets: ACK, and PSH and FIN when they are due. -/
def sendFlags (push fin : Bool) : BitVec 6 :=
  0x10 ||| (if push then 0x8 else 0) ||| (if fin then 0x1 else 0)

/-- Whether `tcp_send_and_ack` asks to be called again. -/
def sendAgain (t : Tcb) : Bool :=
  match t.state with
  | .established => windowSize t > 0 && rbAvail t.outbuf t.sndNxt > 0
  | .finWait1 | .closing | .lastAck => windowSize t > 0 && rbAvail t.outbuf t.sndNxt > -1
  | _ => false

/-- Start an RTT measurement with this segment, unless one is running or it is a repeat. -/
def startRtt (t : Tcb) (len : ℕ) (now : Timeval) : Tcb :=
  if len > 0 ∧ t.rttMark < t.sndUna ∧ t.sndNxt ≥ t.rttLimit then
    { t with rttMark := t.sndNxt, rttTime := now }
  else t

/-- Move `snd_nxt` past the segment just built, and `rtt_limit` with it. -/
def advanceNxt (t : Tcb) (len : ℕ) (fin : Bool) : Tcb :=
  let nxt := t.sndNxt + BitVec.ofNat 32 len + (if fin then 1 else 0)
  { t with sndNxt := nxt, rttLimit := if t.rttLimit < nxt then nxt else t.rttLimit }

/-- The part of `tcp_send_and_ack` that emits a segment. -/
def emitSegment (c : Conn) (data : List Uchar) (fin : Bool) (now : Timeval) : Conn :=
  let flags := sendFlags (pushDue c.tcb data.length) fin
  let c := if c.tcb.eTimeout.isNone ∧ data.length > 0 then setTimeout c now else c
  let (t, s) := makeTcpHdr (startRtt c.tcb data.length now) data flags
  sendPkt { c with tcb := advanceNxt t data.length fin } s

/-- `tcp_send_and_ack`: send the next data, FIN or acknowledgement; the second component
says whether there is more to send. -/
def tcpSendAndAck (c : Conn) (now : Timeval) : Option (Conn × Bool) :=
  (sendData c.tcb).map fun data =>
    let fin := finDue c.tcb data.length
    if data.length = 0 ∧ ¬fin ∧ c.tcb.lastAcked ≥ c.tcb.rcvNxt then (c, false)
    else
      let c := emitSegment c data fin now
      (c, sendAgain c.tcb)

/-- The always event of a connection with something to send; the second component is the
callback's value. -/
def doTcbWrite (c : Conn) (now : Timeval) : Option (Conn × Bool) :=
  if c.tcb.state = .synRecvd then
    let c := tcpSendSyn c
    some ({ c with tcb := { c.tcb with eTcbSend := none } }, false)
  else
    (tcpSendAndAck c now).map fun (c, more) =>
      let c := if more then c else { c with tcb := { c.tcb with eTcbSend := none } }
      (c, c.tcb.eTcbSend.isSome)

def tcpGetOutputSpace (t : Tcb) : ℤ := rbLeft t.outbuf

def tcpSend (c : Conn) (data : List Uchar) : Option Conn :=
  (rbWrite c.tcb.outbuf data).map fun (r, n) =>
    let c := { c with
      tcb := { c.tcb with outbuf := r }
      trace := { c.trace with written := c.trace.written ++ data.take n } }
    if windowSize c.tcb > 0 then markForIfWrite c else c

/-- `tcp_read`: the bytes read, and the connection with them removed from `inbuf`. -/
def tcpRead (c : Conn) (len : ℤ) : Option (Conn × List Uchar) :=
  let t := c.tcb
  let blocked := rbLeft t.inbuf = 0
  let len := if len > rbAvail t.inbuf t.readSeq then rbAvail t.inbuf t.readSeq else len
  (rbRead t.inbuf t.readSeq len).map fun d =>
    let readSeq := t.readSeq + BitVec.ofNat 32 d.length
    let inbuf := rbAdvance t.inbuf readSeq
    let t := { t with readSeq, inbuf, rcvWnd := BitVec.ofInt 32 (rbLeft inbuf) }
    if blocked then
      -- the window was closed: make the next call of `tcp_send_and_ack` announce it
      (markForIfWrite { c with tcb := { t with lastAcked := t.lastAcked - 1 } }, d)
    else ({ c with tcb := t }, d)

end Ptrtd
