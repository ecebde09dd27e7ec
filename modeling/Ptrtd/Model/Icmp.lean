import Ptrtd.Model.TcpPacket

/-! # ICMP and neighbor discovery (`icmp.c`)

The packets that `icmp.c` builds, the list of neighbors with their queues, and what is handed to
the driver. An entry of `nlist` is known by its address: `find_neighbor` yields the first with it,
and no entry is added while there is one. -/

namespace Ptrtd.Wire

open Circular (Mem store load)
open Table (Addr)

/-- What `icmp.c` uses of a `struct iface`: `hwaddr_len` is the length of the hardware address. -/
structure Iface where
  hwaddr : List Uchar
  hwaddr_le : hwaddr.length ≤ 6

/-- The interface of the tap driver, with `default_mac`. -/
def tapIface : Iface := ⟨[0x2, 0x0, 0x12, 0x34, 0x56, 0x78], by decide⟩

def Iface.hwaddrLen (iface : Iface) : ℕ := iface.hwaddr.length

def mylladdr : Addr := ⟨[0xfe, 0x80, 0, 0, 0, 0, 0, 0, 0, 0, 0, 0, 0, 0, 0, 5], rfl⟩
def otherlladdr : Addr := ⟨[0xfe, 0x80, 0, 0, 0, 0, 0, 0, 0, 0, 0, 0, 0, 0, 0, 1], rfl⟩
def allhostsaddr : Addr := ⟨[0xff, 0x02, 0, 0, 0, 0, 0, 0, 0, 0, 0, 0, 0, 0, 0, 1], rfl⟩

/-! ## Builders -/

/-- The headers as `make_icmp_hdr` writes them before the checksum; `len` is the total length. -/
def icmpFields (p : Pbuf) (len : ℤ) (src dst : Addr) (type code : Uchar) (value : Uint) : Pbuf :=
  let p := p.clear 48
  let p := p.write 0 [0x60]
  let p := p.put16 4 (len - 40)
  let p := p.write 6 [0x3a]
  let p := p.write 7 [0xff]
  let p := p.write 8 src.bytes
  let p := p.write 24 dst.bytes
  let p := p.write 40 [type]
  let p := p.write 41 [code]
  let p := p.put32 44 value.toNat
  p.put16 42 0

/-- `PUT_16 (p + i, ~make_cksum (p, len))`: the macro evaluates its argument once for each byte,
the second time with the first byte in place. -/
def putCksumTwice (p : Pbuf) (i len : ℕ) : Pbuf :=
  let p := p.write i [UInt8.ofInt (~~~(makeCksum p.d len : ℤ) / 256)]
  p.write (i + 1) [UInt8.ofInt (~~~(makeCksum p.d len : ℤ))]

/-- `make_icmp_hdr`, with its value. -/
def makeIcmpHdr (p : Pbuf) (len : ℤ) (src dst : Addr) (type code : Uchar) (value : Uint) :
    Pbuf × ℤ :=
  let len := len + 48
  (putCksumTwice (icmpFields p len src dst type code value) 42 len.toNat, len)

/-- Build the header around what follows it, and set `dlen`. -/
def finishIcmp (p : Pbuf) (len : ℤ) (src dst : Addr) (type code : Uchar) (value : Uint) :
    Pbuf :=
  let (p, len) := makeIcmpHdr p len src dst type code value
  { p with dlen := len }

/-- The packet of `icmp_send_error` for the one at `sp`. -/
def icmpError (sp : Mem Uchar) (len : ℕ) : Pbuf :=
  let nlen := if len > 1232 then 1232 else len
  let p := (getBuffer nlen).memcpy 48 sp 0 nlen
  finishIcmp p nlen (getAddr sp 24) (getAddr sp 8) 4 1 40

/-- The packet of `icmp_send_ping_reply`. -/
def icmpPingReply (sp : Mem Uchar) (plen : ℕ) : Pbuf :=
  let p := (getBuffer plen).memcpy 48 sp 48 (plen - 48)
  finishIcmp p (plen - 48) (getAddr sp 24) (getAddr sp 8) 129 0 (get32 sp 44)

/-- The link-layer address option, and the offset behind it. -/
def putHwaddr (iface : Iface) (p : Pbuf) (off : ℕ) (type : Uchar) : Pbuf × ℕ :=
  if iface.hwaddrLen > 0 then
    let p := p.write off [type]
    let p := p.write (off + 2) iface.hwaddr
    let words := (9 + iface.hwaddrLen) / 8
    (p.write (off + 1) [UInt8.ofNat words], off + 8 * words)
  else (p, off)

/-- `sna`, the multicast address of the nodes that end in the same three bytes. -/
def solicitedNode (dest : Addr) : Addr :=
  ⟨[0xff, 0x02, 0, 0, 0, 0, 0, 0, 0, 0, 0, 0x1, 0xff] ++ dest.bytes.drop 13, by
    simp [dest.length_eq]⟩

/-- The packet of `icmp_send_ns`. -/
def icmpNs (iface : Iface) (dest : Addr) : Pbuf :=
  let p := (getBuffer 128).write 48 dest.bytes
  let (p, off) := putHwaddr iface p 64 1
  finishIcmp p (off - 48) mylladdr (solicitedNode dest) 135 0 0

/-- The packet of `icmp_send_na`; `none` is the null pointer. -/
def icmpNa (iface : Iface) (dest : Option Addr) : Pbuf :=
  let flags : Uint := if dest.isSome then 0x60000000 else 0x20000000
  let p := (getBuffer 128).write 48 mylladdr.bytes
  let (p, off) := putHwaddr iface p 64 2
  finishIcmp p (off - 48) mylladdr (dest.getD allhostsaddr) 136 0 flags

/-! ## Neighbors -/

inductive NdState
  | incomplete | reachable | stale | delay | probe
  deriving DecidableEq, Repr

/-- `struct neighbor`. The hardware address is `none` while the memory has not been set. -/
structure Neighbor where
  queue : List Pbuf
  state : NdState
  addr : Addr
  linkaddr : Option (List Uchar)

/-- Where a driver is told to send a packet. -/
inductive LinkDest
  | multicast
  | null
  | unicast (linkaddr : Option (List Uchar))
  deriving DecidableEq, Repr

/-- The neighbors, and the packets handed to the driver so far, oldest first. -/
structure Nd where
  nlist : List Neighbor
  sent : List (Pbuf × LinkDest)

namespace Nd

/-- `nlist = NULL`, and nothing sent. -/
def init : Nd := ⟨[], []⟩

def findNeighbor (s : Nd) (addr : Addr) : Option Neighbor :=
  s.nlist.find? fun n => n.addr = addr

/-- Change the entry that `find_neighbor` yields for the address. -/
def update (s : Nd) (addr : Addr) (f : Neighbor → Neighbor) : Nd :=
  { s with nlist := updateFirst s.nlist }
where
  updateFirst : List Neighbor → List Neighbor
    | [] => []
    | n :: ns => if n.addr = addr then f n :: ns else n :: updateFirst ns

def transmit (s : Nd) (p : Pbuf) (hw : LinkDest) : Nd := { s with sent := s.sent ++ [(p, hw)] }

def addNeighbor (iface : Iface) (s : Nd) (addr : Addr) (lladdr : Option (List Uchar)) : Nd :=
  let n : Neighbor :=
    { queue := []
      state := if iface.hwaddrLen = 0 ∨ lladdr.isSome then .reachable else .incomplete
      addr, linkaddr := lladdr }
  { s with nlist := n :: s.nlist }

/-- `queue_packet`: behind the packets that wait already. -/
def queuePacket (s : Nd) (addr : Addr) (p : Pbuf) : Nd :=
  s.update addr fun n => { n with queue := n.queue ++ [p] }

/-- `icmp_send_ns`, whose packet goes to a multicast address and straight to the driver. -/
def icmpSendNs (iface : Iface) (s : Nd) (dest : Addr) : Nd :=
  s.transmit (icmpNs iface dest) .multicast

/-- The next hop of a packet: its destination when that is link-local, else the router. -/
def nextHop (p : Pbuf) : Addr :=
  if p.d 24 = 0xfe ∧ p.d 25 = 0x80 then getAddr p.d 24 else otherlladdr

def sendPkt (iface : Iface) (s : Nd) (p : Pbuf) : Nd :=
  if p.d 24 = 0xff then s.transmit p .multicast
  else if iface.hwaddrLen > 0 then
    let dest := nextHop p
    match s.findNeighbor dest with
    | some n =>
        if n.state = .reachable then s.transmit p (.unicast n.linkaddr) else s.queuePacket dest p
    | none =>
        let s := icmpSendNs iface s dest
        let s := s.addNeighbor iface dest none
        s.queuePacket dest p
  else s.transmit p .null

/-- `got_neighbor`. The packets are sent one by one with the queue still in place. -/
def gotNeighbor (iface : Iface) (s : Nd) (addr : Addr) (lladdr : Option (List Uchar)) : Nd :=
  match s.findNeighbor addr with
  | some n =>
      let s := s.update addr fun n =>
        { n with linkaddr := lladdr.or n.linkaddr, state := .reachable }
      if n.queue.isEmpty then s
      else
        let s := n.queue.foldl (sendPkt iface) s
        s.update addr fun n => { n with queue := [] }
  | none => s.addNeighbor iface addr lladdr

end Nd

/-! ## Received messages -/

def icmpSendPingReply (iface : Iface) (s : Nd) (r : Recv) : Nd :=
  s.sendPkt iface (icmpPingReply r.d r.len)

def icmpSendError (iface : Iface) (s : Nd) (r : Recv) : Nd :=
  s.sendPkt iface (icmpError r.d r.len)

def icmpSendNa (iface : Iface) (s : Nd) (dest : Option Addr) : Nd :=
  s.sendPkt iface (icmpNa iface dest)

/-- The first `hwaddr_len` bytes of `p + 66`. -/
def Recv.lladdr (iface : Iface) (r : Recv) : List Uchar := load r.d 66 iface.hwaddrLen

def Recv.src (r : Recv) : Addr := getAddr r.d 8

def handleIcmp (iface : Iface) (s : Nd) (r : Recv) : Nd :=
  if r.d 40 = 128 then icmpSendPingReply iface s r
  else if r.d 40 = 135 then
    let s := if iface.hwaddrLen > 0 ∧ r.d 64 = 1 then s.gotNeighbor iface r.src (r.lladdr iface)
      else s
    if getAddr r.d 48 = mylladdr then icmpSendNa iface s r.src else s
  else if r.d 40 = 136 then
    if iface.hwaddrLen > 0 ∧ r.d 64 = 2 then s.gotNeighbor iface r.src (r.lladdr iface)
    else s.gotNeighbor iface r.src none
  else s

end Ptrtd.Wire
