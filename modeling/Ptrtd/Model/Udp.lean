import Ptrtd.Model.Icmp

/-! # UDP (`udp.c`, `ptrtd-udp.c`)

There is one UDP socket on the IPv6 side, the relay's. Each IPv6 client gets a map with an IPv4
socket of its own. -/

namespace Ptrtd.Wire

open Circular (Mem store load)
open Table (Addr)

/-- The headers as `udp_send` writes them before the checksum, for `len` bytes of data. -/
def udpFields (p : Pbuf) (len : ℕ) (laddr : Addr) (lport : ℕ) (raddr : Addr) (rport : ℕ) : Pbuf :=
  let p := p.clear 48
  let p := p.write 0 [0x60]
  let p := p.put16 4 (len + 8)
  let p := p.write 6 [17]
  let p := p.write 7 [0x40]
  let p := p.write 8 laddr.bytes
  let p := p.write 24 raddr.bytes
  let p := p.put16 40 lport
  let p := p.put16 42 rport
  p.put16 44 (len + 8)

/-- The packet of `udp_send`. -/
def udpSend (data : List Uchar) (laddr : Addr) (lport : ℕ) (raddr : Addr) (rport : ℕ) : Pbuf :=
  let p := getBuffer 1280
  let len := if data.length > 1280 - 48 then 1280 - 48 else data.length
  let p := p.write 48 (data.take len)
  let p := udpFields p len laddr lport raddr rport
  { putCksum p 46 (len + 48) with dlen := len + 48 }

/-- An IPv4 address, `struct in_addr`. -/
structure InAddr where
  bytes : List Uchar
  length_eq : bytes.length = 4
  deriving DecidableEq

/-- The IPv4 address at the end of an IPv6 address. -/
def embedded (a : Addr) : InAddr := ⟨a.bytes.drop 12, by simp [a.length_eq]⟩

/-- The IPv6 address with the first twelve bytes of `pfx` that ends in an IPv4 address. -/
def embed (pfx : Addr) (a : InAddr) : Addr :=
  ⟨pfx.bytes.take 12 ++ a.bytes, by simp [pfx.length_eq, a.length_eq]⟩

/-- `struct udp_map`: the IPv4 socket and the IPv6 client. The source never sets `laddr` and
`lport`; the two events are registered as long as the map is in the list. -/
structure UdpMap where
  fd : ℤ
  raddr : Addr
  rport : ℕ
  deriving DecidableEq

/-- A call of `sendto`: the socket, the bytes, their number as the source computes it, and the
IPv4 address and port. -/
structure Sendto where
  fd : ℤ
  data : List Uchar
  len : ℤ
  addr : InAddr
  port : ℕ
  deriving DecidableEq

/-- The relay's UDP state: whether the socket on the IPv6 side is open, and the maps. The traces
are the datagrams sent over IPv4, and the packets handed to `send_pkt`. -/
structure Udp where
  listening : Bool
  ulist : List UdpMap
  sent4 : List Sendto
  sent6 : List Pbuf

namespace Udp

/-- `ptrtd_udp_init` -/
def init : Udp := { listening := true, ulist := [], sent4 := [], sent6 := [] }

/-- `udp_get_map`: the map of a client, made with the socket `fd` when there is none. -/
def getMap (s : Udp) (raddr : Addr) (rport : ℕ) (fd : ℤ) : Udp × UdpMap :=
  match s.ulist.find? fun um => um.rport = rport ∧ um.raddr = raddr with
  | some um => (s, um)
  | none =>
      let um : UdpMap := { fd, raddr, rport }
      ({ s with ulist := um :: s.ulist }, um)

/-- `incoming` of `ptrtd-udp.c`; the IPv4 address is the end of `laddr`. -/
def incoming (s : Udp) (data : List Uchar) (len : ℤ) (laddr : Addr) (lport : ℕ)
    (raddr : Addr) (rport : ℕ) (fd : ℤ) : Udp :=
  let (s, um) := s.getMap raddr rport fd
  { s with sent4 := s.sent4 ++ [{ fd := um.fd, data, len, addr := embedded laddr, port := lport }] }

/-- `handle_udp`; `fd` is the socket that is made for a new client. -/
def handleUdp (s : Udp) (r : Recv) (fd : ℤ) : Udp :=
  if s.listening then
    s.incoming (load r.d 48 (r.len - 48)) (r.len - 48) (getAddr r.d 24) (get16 r.d 42) r.src
      (get16 r.d 40) fd
  else s

/-- `handle_udp_read` for the map of a socket: the datagram `data` from the IPv4 host `src`, port
`sport`. The source never sets `pfx`: it is whatever the stack holds. -/
def handleUdpRead (s : Udp) (um : UdpMap) (data : List Uchar) (src : InAddr) (sport : ℕ)
    (pfx : Addr) : Udp :=
  let laddr := embed pfx src
  { s with sent6 := s.sent6 ++ [udpSend data laddr sport um.raddr um.rport] }

/-- `remove_udp_map` -/
def removeMap (s : Udp) (um : UdpMap) : Udp := { s with ulist := s.ulist.erase um }

end Udp

/-- What happens to the UDP state: a packet is received, and `socket` yields `fd` if it is called;
a datagram arrives at a map's socket; a map has become stale. -/
inductive UdpInput
  | packet (r : Recv) (fd : ℤ)
  | readable (fd : ℤ) (data : List Uchar) (src : InAddr) (sport : ℕ) (pfx : Addr)
  | stale (fd : ℤ)

/-- `socket` yields a descriptor that is not open, and `event_loop` calls back only for maps that
are in the list. -/
def udpStep (s : Udp) : UdpInput → Option Udp
  | .packet r fd => if ∀ um ∈ s.ulist, um.fd ≠ fd then some (s.handleUdp r fd) else none
  | .readable fd data src sport pfx =>
      (s.ulist.find? fun um => um.fd = fd).map fun um => s.handleUdpRead um data src sport pfx
  | .stale fd => (s.ulist.find? fun um => um.fd = fd).map s.removeMap

end Ptrtd.Wire
