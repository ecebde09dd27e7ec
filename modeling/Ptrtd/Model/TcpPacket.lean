import Ptrtd.Model.Packet
import Ptrtd.Model.Tcp

/-! # TCP packets (`tcp.c`)

The bytes that the builders of `tcp.c` put into a packet buffer, and the segment that
`handle_tcp` reads out of a received one. What the builders do to the block is in
`Ptrtd.Model.Tcp`. -/

namespace Ptrtd.Wire

open Circular (Mem store load)
open Table (Addr)

/-- The fields of a `struct tcb` that name the connection. -/
structure Endpoints where
  laddr : Addr
  lport : ℕ
  raddr : Addr
  rport : ℕ

/-- The IPv6 header and the TCP header up to the flags, in 60 bytes that are zero otherwise. -/
def tcpFields (p : Pbuf) (paylen : ℤ) (src dst : Addr) (sport dport : ℤ) (seq ack : Uint)
    (off flags : Uchar) : Pbuf :=
  let p := p.clear 60
  let p := p.write 0 [0x60]
  let p := p.put16 4 paylen
  let p := p.write 6 [6]
  let p := p.write 7 [0x40]
  let p := p.write 8 src.bytes
  let p := p.write 24 dst.bytes
  let p := p.put16 40 sport
  let p := p.put16 42 dport
  let p := p.put32 44 seq.toNat
  let p := p.put32 48 ack.toNat
  let p := p.write 52 [off]
  p.write 53 [flags]

/-- `sum = ~make_cksum (..); PUT_16 (.. + i, sum);` -/
def putCksum (p : Pbuf) (i len : ℕ) : Pbuf := p.put16 i (~~~(makeCksum p.d len : ℤ))

/-- `make_tcp_hdr`, with its value, the total length. The options and the data are in place. -/
def makeTcpHdr (e : Endpoints) (t : Tcb) (buf : Pbuf) (dlen : ℕ) (flags : Uchar) (optwords : ℕ) :
    Pbuf × ℕ :=
  let totlen := 4 * optwords + dlen + 60
  let buf := tcpFields buf (totlen - 40) e.laddr e.raddr e.lport e.rport t.sndNxt
    t.rcvNxt (UInt8.ofNat ((optwords + 5) * 16)) flags
  let buf := buf.put16 54 t.rcvWnd.toNat
  (putCksum buf 56 totlen, totlen)

/-- `tcp_fabricate_rst` for the packet at `data`. -/
def tcpFabricateRst (data : Mem Uchar) : Pbuf :=
  let p := tcpFields (getBuffer 60) 20 (getAddr data 24) (getAddr data 8) (get16 data 42)
    (get16 data 40) (get32 data 48) (get32 data 44 + 1) (5 * 16) 0x14
  { putCksum p 56 60 with dlen := 60 }

def tcpSendRst (e : Endpoints) (t : Tcb) : Pbuf :=
  let p := (getBuffer 60).clear 60
  { (makeTcpHdr e t p 0 0x14 0).1 with dlen := 60 }

def tcpSendSyn (e : Endpoints) (t : Tcb) : Pbuf :=
  let p := getBuffer 68
  let p := p.write 60 [2]
  let p := p.write 61 [4]
  let p := p.put16 62 1216
  let (p, len) := makeTcpHdr e t p 0 0x12 1
  { p with dlen := len }

/-- The packet that `tcp_send_and_ack` builds, without its `dlen` when there is nothing to do;
`none` when reading `outbuf` is undefined. -/
def tcpSendAndAck (e : Endpoints) (t : Tcb) : Option Pbuf :=
  (sendData t).map fun data =>
    let p := (getBuffer 1500).write 60 data
    let fin := finDue t data.length
    if data.length = 0 ∧ ¬fin ∧ t.lastAcked ≥ t.rcvNxt then p
    else
      let flags := UInt8.ofNat (sendFlags (pushDue t data.length) fin).toNat
      let (p, len) := makeTcpHdr e t p data.length flags 0
      { p with dlen := len }

/-! ## Received packets -/

/-- A packet that a driver passes to `handle_packet`: the bytes received, in a zeroed buffer that
has room for `cap` of them. -/
structure Recv where
  bytes : List Uchar
  cap : ℕ
  fits : bytes.length ≤ cap

namespace Recv

def len (r : Recv) : ℕ := r.bytes.length

/-- The memory from `p->d` on. -/
def d (r : Recv) : Mem Uchar := fun i => r.bytes.getD i 0

/-- `40 + 4 * (p[52] >> 4)` -/
def doff (r : Recv) : ℕ := 40 + 4 * ((r.d 52).toNat / 16)

/-- What `handle_tcp` and `tcp_recv_data` read. A `dlen` that is not positive is no data. -/
def segment (r : Recv) : Segment where
  seq := get32 r.d 44
  ack := get32 r.d 48
  flags := BitVec.ofNat 6 (r.d 53).toNat
  wnd := BitVec.ofNat 16 (get16 r.d 54)
  data := load r.d r.doff (r.len - r.doff)

/-- A packet built here, as it arrives elsewhere. -/
def ofPbuf (p : Pbuf) : Recv where
  bytes := load p.d 0 p.dlen.toNat
  cap := p.dlen.toNat
  fits := by simp

end Recv

end Ptrtd.Wire
