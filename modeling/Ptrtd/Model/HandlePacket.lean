import Ptrtd.Model.Session
import Ptrtd.Model.Udp
import Mathlib.Logic.Function.Basic

/-! # Received packets (`handle_packet` of `ptrtd.c`)

The state of the daemon as received packets reach it, and what is copied out of a packet on the
way. The checksum of `handle_packet` is computed and not looked at. What a connection sends is in
its trace; the resets that answer a segment without a connection go to `send_pkt`. -/

namespace Ptrtd.Wire

open Circular (load)
open Table (TcbNode)

/-- The table, the connections by the address of their block, the events they share, the number
of connections made before, and what the two other protocols keep. -/
structure Daemon where
  tcbs : Table.Tcbs
  conn : ℕ → Option Conn
  ev : EventLists
  isn : Uint
  udp : Udp
  nd : Nd

namespace Daemon

/-- The connection of a block, with the events of the daemon. -/
def get (d : Daemon) (t : TcbNode) : Option Conn :=
  (d.conn t.addr).map fun c => { c with ev := d.ev }

/-- Put a connection back. The block leaves the table if it has been freed. -/
def put (rb : Table.Rebalance) (d : Daemon) (t : TcbNode) (c : Conn) : Option Daemon :=
  let d := { d with conn := Function.update d.conn t.addr (some c), ev := c.ev }
  if c.live then some d
  else (Table.tcbDelete rb d.tcbs t).map fun tcbs => { d with tcbs }

/-- `tcp_fabricate_rst` -/
def fabricateRst (iface : Iface) (d : Daemon) (r : Recv) : Daemon :=
  { d with nd := d.nd.sendPkt iface (tcpFabricateRst r.d) }

end Daemon

/-- The address, the ports and the segment as `handle_tcp` reads them. -/
def Recv.arrival (r : Recv) : Table.Arrival where
  laddr := getAddr r.d 24
  lport := BitVec.ofNat 16 (get16 r.d 42)
  raddr := r.src
  rport := BitVec.ofNat 16 (get16 r.d 40)
  tcp := r.segment

/-- Bytes of the packet that are handed on, and their number as the source computes it. -/
structure Payload where
  data : List Uchar
  count : ℤ

/-- What has happened to a packet: the daemon afterwards, the data that `tcp_recv_data`, the UDP
callback or the echo reply has taken from it, and where `tcp_recv_data` has written into it. -/
structure Handled where
  daemon : Daemon
  taken : Option Payload
  terminator : Option ℕ

/-- Whether `handle_tcp` calls `tcp_recv_data`. -/
def reachesRecvData (c : Conn) (s : Segment) (now : Timeval) : Bool :=
  !s.isRst &&
    match handleAck c s now with
    | some (.next c) =>
        !decide (s.seq < c.tcb.rcvNxt) &&
          match c.tcb.state with
          | .finWait2 | .finWait1 | .established => true
          | _ => false
    | _ => false

/-- `handle_tcp`, from the lookup on. -/
def Daemon.handleTcp (rb : Table.Rebalance) (iface : Iface) (d : Daemon) (r : Recv) (now : Timeval)
    (res : ConnectResult) : Option Handled :=
  let s := r.segment
  (r.arrival.find d.tcbs.root).bind fun
    | none => some { daemon := d.fabricateRst iface r, taken := none, terminator := none }
    | some t =>
        if t.listening then
          if s.flags = 0x2 then
            let p := r.arrival
            let t := Table.tcbNode d.tcbs.next false (some p.laddr) p.lport.toNat (some p.raddr)
              p.rport.toNat
            let tcbs := Table.tcbNew rb d.tcbs (some p.laddr) p.lport.toNat (some p.raddr)
              p.rport.toNat false
            (handleSyn d.tcbs.next .tcpMapCb d.isn d.ev s res).bind fun c =>
              ({ d with tcbs, isn := d.isn + 1 }.put rb t c).map fun d =>
                { daemon := d, taken := none, terminator := none }
          else some { daemon := d.fabricateRst iface r, taken := none, terminator := none }
        else
          (d.get t).bind fun c =>
            let c := c.receive s
            (Ptrtd.handleTcp c s now).bind fun c' =>
              (d.put rb t c').map fun d =>
                { daemon := d
                  taken :=
                    if reachesRecvData c s now then some ⟨s.data, s.data.length⟩ else none
                  terminator :=
                    if reachesRecvData c s now ∧ s.data.length > 0 then some r.len else none }

/-- `handle_udp`; `fd` is the socket that is made for a new client. -/
def Daemon.handleUdp (d : Daemon) (r : Recv) (fd : ℤ) : Handled where
  daemon := { d with udp := d.udp.handleUdp r fd }
  taken := if d.udp.listening then some ⟨load r.d 48 (r.len - 48), r.len - 48⟩ else none
  terminator := none

/-- `handle_icmp`; the data of an echo reply is what stands behind its header. -/
def Daemon.handleIcmp (iface : Iface) (d : Daemon) (r : Recv) : Handled where
  daemon := { d with nd := Wire.handleIcmp iface d.nd r }
  taken :=
    if r.d 40 = 128 then some ⟨load (icmpPingReply r.d r.len).d 48 (r.len - 48), r.len - 48⟩
    else none
  terminator := none

/-- `handle_packet`. The clock, the socket for a new UDP client and what becomes of a new
connection's socket are arguments. -/
def handlePacket (rb : Table.Rebalance) (iface : Iface) (d : Daemon) (r : Recv) (now : Timeval)
    (fd : ℤ) (res : ConnectResult) : Option Handled :=
  match r.d 6 with
  | 58 => some (d.handleIcmp iface r)
  | 6 => d.handleTcp rb iface r now res
  | 17 => some (d.handleUdp r fd)
  | 0 => some { daemon := d, taken := none, terminator := none }
  | _ =>
      some
        { daemon := { d with nd := icmpSendError iface d.nd r }
          taken := none, terminator := none }

end Ptrtd.Wire
