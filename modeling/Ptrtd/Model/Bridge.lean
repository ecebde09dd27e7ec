import Ptrtd.Model.Drivers

/-! # The bridge (`tap802ipd.c`)

A program with a tap interface and an 802.IP interface, each of which sends what the other
receives. The frames of the tap interface go to the kernel of the host, those of the other to every
program of the multicast group. -/

namespace Ptrtd.Link

open Circular (load)

/-- `ip_iface` and `tap_iface` -/
structure Bridge where
  ipIface : IfaceEther
  tapIface : IfaceEther

/-- What becomes of a frame that a bridge reads. -/
inductive Forwarding where
  /-- the program exits -/
  | exit
  | ignored
  | sent (s : Sent)

/-- What `init_ifs` makes of the two structures, when this port has been bound. -/
def initIfs (port : ℕ) : Bridge :=
  let ip := iface802ip port
  let tap := ifaceTap
  let ip := if tap.headSize > ip.headSize then { ip with headSize := tap.headSize } else ip
  let tap := if ip.headSize > tap.headSize then { tap with headSize := ip.headSize } else tap
  ⟨ip, tap⟩

namespace Bridge

def handleTapFrame (b : Bridge) (p : Pbuf) : Forwarding := .sent (b.ipIface.sendFrame p)

def handle802ipFrame (b : Bridge) (p : Pbuf) : Forwarding :=
  if p.get16 12 = ethernetIpv6Type ∧ load p.buf (p.offset + 6) 6 ≠ b.ipIface.hwaddr then
    .sent (b.tapIface.sendFrame p)
  else .ignored

/-- `tap_read_callback`. The value `tuntap_do_read` returns is not looked at. -/
def tapReadCallback (b : Bridge) (frame : List Uchar) : Forwarding :=
  let p := pbufNew (b.tapIface.mtu + b.tapIface.headSize)
  let p := (pbufDrop p (b.tapIface.headSize - 14)).1
  b.handleTapFrame (tuntapDoRead p frame).1

/-- `_802ip_read_callback` -/
def _802ipReadCallback (b : Bridge) (frame : List Uchar) : Forwarding :=
  let pkt := pbufNew (b.ipIface.mtu + b.ipIface.headSize)
  let pkt := (pbufDrop pkt (b.ipIface.headSize - 14)).1
  let pkt := pkt.read frame
  if pkt.dlen ≤ 0 then .exit else b.handle802ipFrame pkt

end Bridge

end Ptrtd.Link
