import Ptrtd.Library.SeqNum
import Ptrtd.Model.Buffer
import Ptrtd.Model.Event

/-! # Connection state

The transmission control block of `tcb.h`, the map entry that `ptrtd-tcp.c` keeps for it,
and a connection: both together with the event lists they are registered in. -/

namespace Ptrtd

/-- The `TCP_*` states of `defs.h`. -/
inductive TcpState
  | closed | listen | synSent | synRecvd | established
  | finWait1 | finWait2 | closeWait | closing | lastAck | timeWait
  deriving DecidableEq, Repr

/-- The TCP part of a packet: what `handle_tcp` reads and what `make_tcp_hdr` writes. -/
structure Segment where
  seq : Uint
  ack : Uint
  flags : BitVec 6
  wnd : BitVec 16
  data : List Uchar
  deriving DecidableEq, Repr

def Segment.isFin (s : Segment) : Bool := s.flags &&& 0x1 != 0
def Segment.isSyn (s : Segment) : Bool := s.flags &&& 0x2 != 0
def Segment.isRst (s : Segment) : Bool := s.flags &&& 0x4 != 0
def Segment.isAck (s : Segment) : Bool := s.flags &&& 0x10 != 0

/-- How many sequence numbers a segment occupies: its data, and one each for SYN and FIN. -/
def Segment.span (s : Segment) : ℕ :=
  s.data.length + (if s.isSyn then 1 else 0) + (if s.isFin then 1 else 0)

/-- The values of `cb`: the callback table of the relay, or that of another application of
the interface in `tcp.h`, whose calls arrive from outside. -/
inductive TcpCallback
  | tcpMapCb | otherCb
  deriving DecidableEq, Repr

/-- `struct tcb`. -/
structure Tcb where
  state : TcpState
  inbuf : Ringbuf
  outbuf : Ringbuf
  cb : Option TcpCallback
  sndUna : Uint
  sndNxt : Uint
  sndWnd : Uint
  sndCwnd : Uint
  sndMax : Uint
  iss : Uint
  mss : Uint
  rcvNxt : Uint
  rcvWnd : Uint
  irs : Uint
  lastAcked : Uint
  timeoutMark : Uint
  rttMark : Uint
  rttLimit : Uint
  rttTime : Timeval
  srtt : ℤ
  sdev : ℤ
  readSeq : Uint
  eTcbSend : Option ℕ
  eTimeout : Option ℕ

/-- `struct tcp_map`, without the links of `tlist` and `tcb`: see `MapCell`. -/
structure TcpMap where
  fd : ℤ
  eFdRead : Option ℕ
  eFdWrite : Option ℕ
  deriving DecidableEq, Repr

/-- What a connection has done so far. No function of the daemon reads it. -/
structure Trace where
  /-- segments passed to `handle_tcp`, oldest first -/
  received : List Segment
  /-- segments passed to `send_pkt`, oldest first -/
  sent : List Segment
  /-- the highest sequence number sent so far, counted from `iss` without wrapping -/
  high : ℕ
  /-- whether the application has called `tcp_accept` -/
  acceptCalled : Bool
  /-- bytes `tcp_recv_data` has stored in `inbuf` -/
  stored : List Uchar
  /-- bytes `tcp_send` has stored in `outbuf` -/
  written : List Uchar
  /-- bytes the IPv4 socket has accepted from `write` -/
  relayed : List Uchar
  /-- whether `kill_map` has closed the IPv4 socket -/
  closed : Bool

/-- A connection: the TCB at address `self`, whether it is still allocated, its map (`none`
when there is none or it has been freed), the daemon's event lists and the trace. The pointers
between the map and the TCB are those of `RelayMem`. -/
structure Conn where
  self : ℕ
  tcb : Tcb
  live : Bool
  map : Option TcpMap
  ev : EventLists
  trace : Trace

/-- An event belongs to the connection: its `data` is the TCB or the map. -/
def Conn.owns (c : Conn) (e : Event) : Bool := e.data = .tcb c.self || e.data = .tcpMap c.self

/-- `if (e) remove_event (e);` on an event of type `EVENT_ALWAYS`. -/
def removeAlways? (ev : EventLists) (e : Option ℕ) : EventLists := e.elim ev (removeAlwaysEvent ev)

/-- `if (e) remove_event (e);` on an event of type `EVENT_TIME`. -/
def removeTime? (ev : EventLists) (e : Option ℕ) : EventLists := e.elim ev (removeTimeEvent ev)

/-- `if (e) remove_event (e);` on an event of type `EVENT_FD`. -/
def removeFd? (ev : EventLists) (e : Option ℕ) : EventLists := e.elim ev (removeFdEvent ev)

/-- The trace after a segment has been handed to `send_pkt`. -/
def Trace.send (tr : Trace) (iss : Uint) (s : Segment) : Trace :=
  { tr with
    sent := tr.sent ++ [s]
    high := SeqNum.reach iss tr.high (s.seq + BitVec.ofNat 32 s.span) }

/-- `send_pkt`, as far as the connection is concerned. -/
def sendPkt (c : Conn) (s : Segment) : Conn := { c with trace := c.trace.send c.tcb.iss s }

/-- The block is unlinked from the table and freed, with its buffers. -/
def tcbDelete (c : Conn) : Conn := { c with live := false }

end Ptrtd
