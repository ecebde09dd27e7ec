import Ptrtd.Model.Relay

/-! # Incoming segments (`handle_tcp` of `tcp.c`)

The function is cut where the source has a block of its own. A block that may leave the
function early yields a `Flow`. -/

namespace Ptrtd

/-- Leave `handle_tcp` with `return 0`, or go on with the next block. -/
inductive Flow
  | done (c : Conn)
  | next (c : Conn)

/-- The branch for RST. -/
def handleRst (c : Conn) : Option Conn :=
  (cbClosing c).map fun c =>
    tcbDelete { c with ev := removeTime? (removeAlways? c.ev c.tcb.eTcbSend) c.tcb.eTimeout }

/-- A new RTT sample: smoothed mean and deviation, with C's truncating division. -/
def sampleRtt (t : Tcb) (now : Timeval) : Tcb :=
  let diff := timeAgo now t.rttTime
  let srtt := if t.srtt > 0 then (2 * diff + 8 * t.srtt + 5).tdiv 10 else diff
  let sdev :=
    if diff > srtt then (75 * t.sdev + 25 * (diff - srtt) + 50).tdiv 100
    else (75 * t.sdev + 25 * (srtt - diff) + 50).tdiv 100
  { t with srtt, sdev }

/-- The first part of `if (ack > t->snd_una)`: take an RTT sample when the measured byte is
acknowledged, then move `snd_una` and, after a rollback, `snd_nxt`. -/
def ackUna (t : Tcb) (ack : Uint) (now : Timeval) : Tcb :=
  let t := if t.sndUna ≤ t.rttMark ∧ ack > t.rttMark then sampleRtt t now else t
  { t with sndUna := ack, sndNxt := if ack > t.sndNxt then ack else t.sndNxt }

/-- Stop the timer when the marked segment is acknowledged, and restart it when more is in
flight. -/
def ackTimer (c : Conn) (ack : Uint) (now : Timeval) : Conn :=
  match c.tcb.eTimeout with
  | none => c
  | some e =>
      if ack ≥ c.tcb.timeoutMark then
        let c := { c with ev := removeTimeEvent c.ev e }
        let c :=
          if c.tcb.sndUna < c.tcb.sndNxt then setTimeout c now
          else { c with tcb := { c.tcb with eTimeout := none } }
        { c with tcb := { c.tcb with sndCwnd := c.tcb.sndCwnd + c.tcb.mss } }
      else c

/-- The body of `if (ack > t->snd_una)`. -/
def handleNewAck (c : Conn) (ack : Uint) (now : Timeval) : Option Conn :=
  let c := { c with tcb := ackUna c.tcb ack now }
  match c.tcb.state with
  | .established =>
      let c := { c with tcb := { c.tcb with outbuf := rbAdvance c.tcb.outbuf ack } }
      (cbOutputBufferSpace c (rbLeft c.tcb.outbuf)).map fun c => ackTimer c ack now
  | .finWait1 | .closing | .lastAck => some (ackTimer c ack now)
  | _ => some c

/-- Enter `TIME_WAIT`: the block is removed after two minutes. -/
def enterTimeWait (c : Conn) (now : Timeval) : Conn :=
  { c with
    ev := addTimeEvent c.ev (timeFuture now 120000) .tcpRemove (.tcb c.self)
    tcb := { c.tcb with state := .timeWait, eTimeout := some c.ev.next } }

/-- The switch under `if (t->snd_una == t->snd_nxt)`. -/
def handleAllAcked (c : Conn) (now : Timeval) : Option Flow :=
  match c.tcb.state with
  | .synRecvd =>
      let c := { c with tcb := { c.tcb with state := .established } }
      (cbOutputBufferSpace c (rbLeft c.tcb.outbuf)).map .next
  | .lastAck =>
      some (.done (tcbDelete
        { c with ev := removeTime? (removeAlways? c.ev c.tcb.eTcbSend) c.tcb.eTimeout }))
  | .finWait1 =>
      if rbAvail c.tcb.outbuf c.tcb.sndNxt = -1 then
        some (.next { c with tcb := { c.tcb with state := .finWait2 } })
      else some (.next c)
  | .closing =>
      if rbAvail c.tcb.outbuf c.tcb.sndNxt = -1 then some (.done (enterTimeWait c now))
      else some (.done c)
  | _ => some (.next c)

/-- The block for ACK. -/
def handleAck (c : Conn) (s : Segment) (now : Timeval) : Option Flow :=
  if s.isAck then
    (if s.ack > c.tcb.sndUna then handleNewAck c s.ack now else some c).bind fun c =>
      if c.tcb.sndUna = c.tcb.sndNxt then handleAllAcked c now else some (.next c)
  else some (.next c)

/-- A segment that starts before `rcv_nxt` is acknowledged again and dropped. -/
def handleOld (c : Conn) : Conn :=
  if c.tcb.state = .synRecvd then c
  else markForIfWrite { c with tcb := { c.tcb with lastAcked := c.tcb.lastAcked - 1 } }

/-- Take over the segment's window, and start sending again when it opens. -/
def handleWindow (c : Conn) (s : Segment) : Conn :=
  let t := { c.tcb with sndWnd := s.wnd.setWidth 32 }
  if windowSize t ≤ 0 then
    if windowSize (windowUpdate t) > 0 then markForIfWrite { c with tcb := windowUpdate t }
    else { c with tcb := windowUpdate (windowUpdate t) }
  else { c with tcb := windowUpdate t }

/-- The block of `tcp_recv_data` for data. -/
def recvPayload (c : Conn) (s : Segment) : Option Conn :=
  if s.data.length > 0 then
    let c := markForIfWrite
      { c with tcb := { c.tcb with rcvNxt := c.tcb.rcvNxt + BitVec.ofNat 32 s.data.length } }
    if c.tcb.cb.isSome then
      (rbWrite c.tcb.inbuf s.data).bind fun (r, n) =>
        cbDataAvailable
          { c with
            tcb := { c.tcb with inbuf := r, rcvWnd := BitVec.ofInt 32 (rbLeft r) }
            trace := { c.trace with stored := c.trace.stored ++ s.data.take n } }
    else some c
  else some c

/-- The block of `tcp_recv_data` for FIN. -/
def recvFin (c : Conn) (s : Segment) : Conn :=
  if s.isFin then markForIfWrite { c with tcb := { c.tcb with rcvNxt := c.tcb.rcvNxt + 1 } }
  else c

/-- `tcp_recv_data`; the second component says whether the segment carries FIN. -/
def tcpRecvData (c : Conn) (s : Segment) : Option (Conn × Bool) :=
  (recvPayload c s).map fun c => (recvFin c s, s.isFin)

/-- `tcp_remote_close` -/
def tcpRemoteClose (c : Conn) : Option Conn := (cbClosing c).map fun c => tcpClose c false

/-- The final switch: the states that receive data. -/
def handleData (c : Conn) (s : Segment) (now : Timeval) : Option Conn :=
  match c.tcb.state with
  | .finWait2 =>
      (tcpRecvData c s).map fun (c, fin) => if fin then enterTimeWait c now else c
  | .finWait1 =>
      (tcpRecvData c s).map fun (c, fin) =>
        if fin then { c with tcb := { c.tcb with state := .closing } } else c
  | .established =>
      (tcpRecvData c s).bind fun (c, fin) =>
        if fin then tcpRemoteClose { c with tcb := { c.tcb with state := .closeWait } }
        else some c
  | _ => some c

/-- `handle_tcp` once `tcb_find` has found a block that is not listening. -/
def handleTcp (c : Conn) (s : Segment) (now : Timeval) : Option Conn :=
  if s.isRst then handleRst c
  else
    (handleAck c s now).bind fun
      | .done c => some c
      | .next c =>
          if s.seq < c.tcb.rcvNxt then some (handleOld c)
          else handleData (handleWindow c s) s now

/-- The block that `handle_tcp` builds for a SYN on the listener; `isn` counts the
connections made before. -/
def newTcb (app : TcpCallback) (isn : Uint) (syn : Segment) : Tcb :=
  let iss := nextIsn isn
  windowUpdate
    { state := .synRecvd
      inbuf := rbSet (rbNew (16 * 1024)) (syn.seq + 1)
      outbuf := rbSet (rbNew (16 * 1024)) (iss + 1)
      cb := some app
      sndUna := iss, sndNxt := iss, iss := iss
      sndWnd := syn.wnd.setWidth 32, sndCwnd := 0, sndMax := 0
      mss := 1220
      irs := syn.seq, rcvNxt := syn.seq + 1, readSeq := syn.seq + 1
      rcvWnd := BitVec.ofInt 32 (rbLeft (rbNew (16 * 1024)))
      lastAcked := 0, timeoutMark := 0
      rttMark := iss - 1, rttLimit := iss + 1, rttTime := ⟨0, 0⟩, srtt := 0, sdev := 0
      eTcbSend := none, eTimeout := none }

def Trace.start (syn : Segment) : Trace :=
  { received := [syn], sent := [], high := 0, acceptCalled := false
    stored := [], written := [], relayed := [], closed := false }

/-- `handle_tcp` on the listener: a segment whose only flag is SYN makes a connection, and
its application is told. -/
def handleSyn (self : ℕ) (app : TcpCallback) (isn : Uint) (ev : EventLists) (syn : Segment)
    (res : ConnectResult) : Option Conn :=
  if syn.flags = 0x2 then
    cbIncomingSession
      { self, tcb := newTcb app isn syn, live := true, map := none, ev
        trace := Trace.start syn } res
  else none

end Ptrtd
