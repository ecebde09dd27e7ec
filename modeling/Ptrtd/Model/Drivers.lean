import Ptrtd.Model.Packet

/-! # Interface drivers (`pbuf.c`, `ether.c`, `if_tuntap.c`, `if_802ip.c`, `if_uml_sw.c`)

What happens to a packet between `handle_packet` and the descriptor of an interface, with
`HAVE_LINUX_IF_TUN_H`. A frame is what one `read` or `write` of the descriptor transfers. -/

namespace Ptrtd.Link

open Circular (Mem store load)

open Wire (get16 bytes16)

/-! ## Packet buffers -/

/-- `struct pbuf`: `d` points at index `offset` of `buf`. -/
structure Pbuf where
  size : ℕ
  max : ℕ
  offset : ℕ
  dlen : ℤ
  buf : Mem Uchar

def pbufNew (size : ℕ) : Pbuf := { size, max := size, offset := 0, dlen := 0, buf := fun _ => 0 }

/-- `pbuf_drop`, with the value it returns. -/
def pbufDrop (pb : Pbuf) (len : ℕ) : Pbuf × ℤ :=
  if pb.max < len then (pb, -1)
  else
    let pb := { pb with max := pb.max - len, offset := pb.offset + len, dlen := pb.dlen - len }
    (pb, pb.max)

/-- `pbuf_raise`, with the value it returns. -/
def pbufRaise (pb : Pbuf) (len : ℕ) : Pbuf × ℤ :=
  if pb.offset < len then (pb, -1)
  else
    let pb := { pb with max := pb.max + len, offset := pb.offset - len, dlen := pb.dlen + len }
    (pb, pb.max)

namespace Pbuf

/-- `GET_16 (p->d + i)` -/
def get16 (p : Pbuf) (i : ℕ) : ℕ := Wire.get16 p.buf (p.offset + i)

/-- Copy bytes to `p->d + i`. -/
def put (p : Pbuf) (i : ℕ) (l : List Uchar) : Pbuf :=
  { p with buf := store p.buf (p.offset + i) l }

/-- `p->dlen = read (fd, p->d, p->max)` when this frame is next. -/
def read (p : Pbuf) (frame : List Uchar) : Pbuf :=
  { p.put 0 (frame.take p.max) with dlen := (frame.take p.max).length }

/-- The bytes of `write (fd, p->d, p->dlen)`. -/
def frame (p : Pbuf) : List Uchar := load p.buf p.offset p.dlen.toNat

end Pbuf

/-! ## Interfaces -/

/-- What becomes of a frame that is read. -/
inductive Delivery where
  /-- the program exits -/
  | exit
  | ignored
  /-- `handle_packet` is called -/
  | handled (pkt : Pbuf)

/-- What a packet is sent as, and what every `pbuf_raise` on the way returned. -/
structure Sent where
  frame : List Uchar
  raised : List ℤ

/-- `struct iface_ether`, whose `send_frame` and read callback are the driver's. -/
structure IfaceEther where
  mtu : ℕ
  hwaddr : List Uchar
  headSize : ℕ
  sendFrame : Pbuf → Sent

/-- `struct iface`, with the callback that reads a frame. -/
structure Iface where
  mtu : ℕ
  readCallback : List Uchar → Delivery
  getBuffer : ℕ → Pbuf
  sendUnicast : Pbuf → Mem Uchar → Sent
  sendMulticast : Pbuf → Mem Uchar → Sent

/-- `ETH_P_IPV6` and `ETHERNET_IPV6_TYPE`. -/
def ethernetIpv6Type : ℕ := 0x86dd

/-! ## `ether.c` -/

def etherGetBuffer (iface : IfaceEther) (size : ℕ) : Pbuf :=
  (pbufDrop (pbufNew (size + iface.headSize)) iface.headSize).1

/-- The body of `ether_send_unicast` and `ether_send_multicast`, with the destination they
write. -/
def etherSend (iface : IfaceEther) (p : Pbuf) (dest : List Uchar) : Sent :=
  let (p, raised) := pbufRaise p 14
  let p := p.put 0 dest
  let p := p.put 6 iface.hwaddr
  let p := p.put 12 (bytes16 ethernetIpv6Type)
  let sent := iface.sendFrame p
  { sent with raised := raised :: sent.raised }

def etherSendUnicast (iface : IfaceEther) (p : Pbuf) (hwdest : Mem Uchar) : Sent :=
  etherSend iface p (load hwdest 0 6)

def etherSendMulticast (iface : IfaceEther) (p : Pbuf) (dest : Mem Uchar) : Sent :=
  etherSend iface p (0x33 :: 0x33 :: load dest 12 4)

def etherPktIn (pkt : Pbuf) : Delivery :=
  if pkt.get16 12 = ethernetIpv6Type then .handled (pbufDrop pkt 14).1 else .ignored

/-- What `ether_setup` fills in. -/
def etherSetup : IfaceEther :=
  { mtu := 1500, hwaddr := List.replicate 6 0, headSize := 14, sendFrame := fun _ => ⟨[], []⟩ }

/-- The `struct iface` at the start of a `struct iface_ether`. -/
def IfaceEther.iface (i : IfaceEther) (readCallback : List Uchar → Delivery) : Iface :=
  { mtu := i.mtu, readCallback, getBuffer := etherGetBuffer i,
    sendUnicast := etherSendUnicast i, sendMulticast := etherSendMulticast i }

/-! ## `if_tuntap.c` -/

/-- `tuntap_do_read`, with the value it returns. -/
def tuntapDoRead (p : Pbuf) (frame : List Uchar) : Pbuf × ℤ :=
  let p := p.read frame
  if p.dlen > 4 ∧ p.get16 2 = ethernetIpv6Type then ((pbufDrop p 4).1, 0) else (p, -1)

def tuntapDoSend (p : Pbuf) : Sent :=
  let (p, raised) := pbufRaise p 4
  let p := p.put 0 [0, 0]
  let p := p.put 2 (bytes16 ethernetIpv6Type)
  ⟨p.frame, [raised]⟩

def tunReadCallback (mtu : ℕ) (frame : List Uchar) : Delivery :=
  let (pkt, ret) := tuntapDoRead (pbufNew (mtu + 4)) frame
  if ret = 0 then .handled pkt else .ignored

def tunGetBuf (size : ℕ) : Pbuf := (pbufDrop (pbufNew (size + 4)) 4).1

def tunSend (p : Pbuf) (_d : Mem Uchar) : Sent := tuntapDoSend p

def tunNewIf : Iface :=
  { mtu := 1280, readCallback := tunReadCallback 1280, getBuffer := tunGetBuf,
    sendUnicast := tunSend, sendMulticast := tunSend }

/-- The value `tuntap_do_read` returns is not looked at. -/
def tapReadCallback (iface : IfaceEther) (frame : List Uchar) : Delivery :=
  let p := pbufNew (iface.mtu + iface.headSize)
  let p := (pbufDrop p (iface.headSize - 14)).1
  etherPktIn (tuntapDoRead p frame).1

def tapSendFrame (p : Pbuf) : Sent := tuntapDoSend p

def defaultMac : List Uchar := [0x2, 0x0, 0x12, 0x34, 0x56, 0x78]

/-- The `struct iface_tap`. -/
def ifaceTap : IfaceEther :=
  { etherSetup with mtu := 1280, hwaddr := defaultMac, headSize := etherSetup.headSize + 4,
                    sendFrame := tapSendFrame }

def tapNewIf : Iface := ifaceTap.iface (tapReadCallback ifaceTap)

/-! ## `if_802ip.c` and `if_uml_sw.c` -/

/-- The read callback of the two drivers that have a socket: a datagram without bytes ends the
program. -/
def socketReadCallback (iface : IfaceEther) (frame : List Uchar) : Delivery :=
  let pkt := pbufNew (iface.mtu + iface.headSize)
  let pkt := (pbufDrop pkt (iface.headSize - 14)).1
  let pkt := pkt.read frame
  if pkt.dlen ≤ 0 then .exit else etherPktIn pkt

/-- What `sendto` transfers. -/
def socketSendFrame (p : Pbuf) : Sent := ⟨p.frame, []⟩

def _802ipReadCallback (iface : IfaceEther) : List Uchar → Delivery := socketReadCallback iface

def _802ipSendFrame : Pbuf → Sent := socketSendFrame

/-- The `struct iface_802ip` of a program that has bound this port. -/
def iface802ip (port : ℕ) : IfaceEther :=
  { etherSetup with mtu := 1280, sendFrame := _802ipSendFrame,
                    hwaddr := [0x02, UInt8.ofNat (port % 256), 0xaa, 0xaa, 0xaa, 0xaa] }

def _802ipNewIf (port : ℕ) : Iface := (iface802ip port).iface (_802ipReadCallback (iface802ip port))

def umlSwReadCallback (iface : IfaceEther) : List Uchar → Delivery := socketReadCallback iface

def umlSwSendFrame : Pbuf → Sent := socketSendFrame

/-- The `struct iface_uml_sw` of the program with this `getpid ()`. -/
def ifaceUmlSw (pid : ℕ) : IfaceEther :=
  { etherSetup with mtu := 1280, sendFrame := umlSwSendFrame,
                    hwaddr := [0x02, 0] ++ Wire.bytes32 pid }

def umlSwNewIf (pid : ℕ) : Iface := (ifaceUmlSw pid).iface (umlSwReadCallback (ifaceUmlSw pid))

/-! ## The registered drivers -/

inductive Driver where
  | tun
  | tap
  | _802ip (port : ℕ)
  | umlSw (pid : ℕ)
  deriving DecidableEq, Repr

/-- `create_func` of the driver. -/
def Driver.newIf : Driver → Iface
  | .tun => tunNewIf
  | .tap => tapNewIf
  | ._802ip port => _802ipNewIf port
  | .umlSw pid => umlSwNewIf pid

end Ptrtd.Link
