import Ptrtd.Model.HandlePacket
import Ptrtd.Model.UdpMaps

/-! # The whole daemon

The connections, the UDP maps and the neighbors side by side, with the events and the descriptors
that they share. `event_loop` runs an event that is registered, in whatever order; the callback is
the one that the event names, on the block or the map that its `data` points to. There is no result
where the block has been freed, or where a packet leaves its buffer. -/

namespace Ptrtd.Wire

open Table (TcbNode)

/-- The state of the daemon. The events and the open descriptors are those of `udp`. -/
structure System where
  tcbs : Table.Tcbs
  conn : ℕ → Option Conn
  isn : Uint
  udp : UdpMem
  nd : Nd

/-- What the system reports to the callback of a descriptor: a packet at the interface, with what
`ALLOC` and the calls of `socket` and `connect` would yield; an event at the socket of a
connection; or a datagram at the socket of a UDP map. -/
inductive SystemIo
  | frame (r : Recv) (um : ℕ) (fd : ℤ) (now now' : Timeval) (res : ConnectResult)
  | tcp (io : Io)
  | datagram (data : List Uchar) (src : InAddr) (sport : ℕ) (pfx : Table.Addr) (now : Timeval)

/-- The event that `event_loop` runs, by its address. -/
inductive SystemInput
  | time (e : ℕ)
  | fd (e : ℕ) (io : SystemIo)
  | always (e : ℕ) (now : Timeval)

/-- The event of a list with the given address. -/
def registered (l : List Event) (e : ℕ) : Option Event := l.find? fun x => x.addr = e

/-- The descriptor that `socket` yields is not open. -/
def freshSocket (opened : ℤ → Bool) : ConnectResult → Bool
  | .noSocket => true
  | .connected fd | .inProgress fd | .failed fd => !opened fd

/-- The open descriptors after a map has been made, or `kill_map` has closed its socket. -/
def reopen (m m' : Option TcpMap) (opened : ℤ → Bool) : ℤ → Bool := fun fd =>
  if m'.any (·.fd = fd) then true else if m.any (·.fd = fd) then false else opened fd

namespace System

/-- The daemon without what the UDP maps have in memory. -/
def daemon (s : System) : Daemon where
  tcbs := s.tcbs
  conn := s.conn
  ev := s.udp.ev
  isn := s.isn
  udp :=
    { listening := s.udp.listening
      ulist := s.udp.allocated.map fun um => (s.udp.cell um).map
      sent4 := s.udp.sent4
      sent6 := s.udp.sent6 }
  nd := s.nd

/-- A connection, by the address of its block, has brought the daemon into the state `d`. -/
def resume (s : System) (a : ℕ) (d : Daemon) : System where
  tcbs := d.tcbs
  conn := d.conn
  isn := d.isn
  udp :=
    { s.udp with
      ev := d.ev
      opened := reopen ((s.conn a).bind Conn.map) ((d.conn a).bind Conn.map) s.udp.opened }
  nd := d.nd

/-- An event of a block or its map is run. -/
def onConn (rb : Table.Rebalance) (s : System) (a : ℕ) (i : Input) : Option System :=
  (s.tcbs.live.find? fun t => t.addr = a).bind fun t =>
    (s.daemon.get t).bind fun c =>
      (Ptrtd.step c i).bind fun c' => (s.daemon.put rb t c').map fun d => s.resume a d

/-- A UDP packet arrives, or an event of a UDP map is run. -/
def onUdp (s : System) (i : UdpMemInput) : Option System :=
  (udpMemStep s.udp i).map fun udp => { s with udp }

/-- The block that a segment is for, or the one that it may make. -/
def target (s : System) (r : Recv) : ℕ :=
  match r.arrival.find s.tcbs.root with
  | some (some t) => if t.listening then s.tcbs.next else t.addr
  | _ => s.tcbs.next

/-- `handle_tcp`. The zero that `tcp_recv_data` writes behind the data has to be in the buffer. -/
def handleTcp (rb : Table.Rebalance) (iface : Iface) (s : System) (r : Recv) (now : Timeval)
    (res : ConnectResult) : Option System :=
  if freshSocket s.udp.opened res then
    (s.daemon.handleTcp rb iface r now res).bind fun h =>
      if h.terminator.all (· < r.cap) then some (s.resume (s.target r) h.daemon) else none
  else none

/-- `handle_icmp`. There is no result where the copy into an echo reply leaves its buffer, or has
a negative length. -/
def handleIcmp (iface : Iface) (s : System) (r : Recv) : Option System :=
  if r.d 40 = 128 ∧ (icmpPingReply r.d r.len).ok = false then none
  else some { s with nd := Wire.handleIcmp iface s.nd r }

/-- `icmp_send_error`, with the same exception. -/
def icmpSendError (iface : Iface) (s : System) (r : Recv) : Option System :=
  if (icmpError r.d r.len).ok then some { s with nd := Wire.icmpSendError iface s.nd r } else none

/-- `handle_packet` -/
def handlePacket (rb : Table.Rebalance) (iface : Iface) (s : System) (r : Recv) (um : ℕ) (fd : ℤ)
    (now now' : Timeval) (res : ConnectResult) : Option System :=
  match r.d 6 with
  | 58 => s.handleIcmp iface r
  | 6 => s.handleTcp rb iface r now res
  | 17 => s.onUdp (.packet r um fd now now')
  | 0 => some s
  | _ => s.icmpSendError iface r

/-- The callback of a descriptor event. -/
def runFd (rb : Table.Rebalance) (iface : Iface) (s : System) (e : ℕ) (d : DataRef) :
    SystemIo → Option System
  | .frame r um fd now now' res =>
      if d = .iface then s.handlePacket rb iface r um fd now now' res else none
  | .tcp io =>
      match d with
      | .tcpMap a => s.onConn rb a (.fdEvent e io)
      | _ => none
  | .datagram data src sport pfx now =>
      match d with
      | .udpMap _ => s.onUdp (.readable e data src sport pfx now)
      | _ => none

/-- `event_loop` runs an event. -/
def step (rb : Table.Rebalance) (iface : Iface) (s : System) : SystemInput → Option System
  | .time e =>
      (registered s.udp.ev.timeEventList e).bind fun x =>
        match x.data with
        | .tcb a => s.onConn rb a (.timeEvent e)
        | .udpMap _ => s.onUdp (.stale e)
        | _ => none
  | .fd e io => (registered s.udp.ev.fdEventList e).bind fun x => s.runFd rb iface e x.data io
  | .always e now =>
      (registered s.udp.ev.alwaysEventList e).bind fun x =>
        match x.data with
        | .tcb a => s.onConn rb a (.alwaysEvent e now)
        | _ => none

/-- The connection that an input is for, and what it is for this connection. -/
def concerns (s : System) : SystemInput → Option (ℕ × Input)
  | .time e =>
      (registered s.udp.ev.timeEventList e).bind fun x =>
        match x.data with
        | .tcb a => some (a, .timeEvent e)
        | _ => none
  | .fd e io =>
      (registered s.udp.ev.fdEventList e).bind fun x =>
        match x.data, io with
        | .tcpMap a, .tcp io => some (a, .fdEvent e io)
        | .iface, .frame r _ _ now _ _ =>
            if r.d 6 = 6 then some (s.target r, .packet r.segment now) else none
        | _, _ => none
  | .always e now =>
      (registered s.udp.ev.alwaysEventList e).bind fun x =>
        match x.data with
        | .tcb a => some (a, .alwaysEvent e now)
        | _ => none

/-- A connection with the events of the daemon. -/
def get (s : System) (a : ℕ) : Option Conn := (s.conn a).map fun c => { c with ev := s.udp.ev }

/-- A side condition on the inputs of the connections that there are. What happens elsewhere is
an input of a connection as well. -/
def OnConns (ok : Conn → Input → Prop) (s : System) (i : SystemInput) : Prop :=
  (∀ a c j, s.concerns i = some (a, j) → s.get a = some c → ok c j) ∧
    ∀ a c, s.get a = some c → c.live = true → ∀ ev ev', ok { c with ev } (.others ev')

/-- `ptrtd_tcp_init`, `ptrtd_udp_init` and `init_iface` have been called. -/
structure Start (rb : Table.Rebalance) (s : System) : Prop where
  tcbs : s.tcbs = Table.tcpListen rb
  conn : ∀ a, s.conn a = none
  udp : s.udp.Start
  time : s.udp.ev.timeEventList = []
  fd : ∃ e fd, s.udp.ev.fdEventList = [⟨e, .ifReadCallback, .iface, .fd fd false⟩] ∧
    s.udp.opened fd = true
  always : s.udp.ev.alwaysEventList = []

/-- The states reached by steps that satisfy `ok`. -/
def Reached (rb : Table.Rebalance) (iface : Iface) (ok : System → SystemInput → Prop)
    (s : System) : Prop :=
  ∃ s₀, Start rb s₀ ∧ Transition.Run (step rb iface) ok s₀ s

end System

end Ptrtd.Wire
