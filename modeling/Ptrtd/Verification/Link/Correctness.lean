import Ptrtd.Model.Drivers
import Ptrtd.Verification.Packet.Checksum

/-! # Packets through the drivers

A received frame loses its link headers on the way to `handle_packet`, and a packet gets them on
the way to the descriptor. -/

namespace Ptrtd.Link

open Circular (Mem store load load_length)

open Wire (bytes16)

variable {p : Pbuf} {l front packet flags macs : List Uchar} {n : ℕ}

/-- The bytes of a list stand at `p->d`, and `dlen` counts them. -/
structure Holds (p : Pbuf) (l : List Uchar) : Prop where
  dlen : p.dlen = l.length
  bytes : load p.buf p.offset l.length = l

theorem Holds.frame (h : Holds p l) : p.frame = l := by
  rw [Pbuf.frame, h.dlen, Int.toNat_natCast, h.bytes]

theorem load_append_iff {m : Mem Uchar} {i : ℕ} {a b : List Uchar} :
    load m i (a ++ b).length = a ++ b ↔
      load m i a.length = a ∧ load m (i + a.length) b.length = b := by
  rw [List.length_append, ← Circular.load_append]
  constructor
  · intro h
    exact List.append_inj h (load_length m i _)
  · rintro ⟨ha, hb⟩
    rw [ha, hb]

/-! ## Taking a header off -/

/-- A header ends with the type of the packet behind it. -/
def linkHeader (front : List Uchar) : List Uchar := front ++ bytes16 ethernetIpv6Type

@[simp] theorem linkHeader_length (front : List Uchar) :
    (linkHeader front).length = front.length + 2 := by
  simp [linkHeader, bytes16]

theorem Holds.type (h : Holds p (linkHeader front ++ l)) :
    p.get16 front.length = ethernetIpv6Type := by
  have htype := (load_append_iff.mp (load_append_iff.mp h.bytes).1).2
  have hbytes : [p.buf (p.offset + front.length), p.buf (p.offset + front.length + 1)] =
      [0x86, 0xdd] := htype
  obtain ⟨hfst, hsnd⟩ := List.cons_eq_cons.mp hbytes
  obtain ⟨hsnd, -⟩ := List.cons_eq_cons.mp hsnd
  rw [Pbuf.get16, Wire.get16, hfst, hsnd]
  rfl

/-- What `pbuf_drop` leaves of a header and what is behind it. -/
theorem Holds.drop (h : Holds p (linkHeader front ++ l)) (hmax : front.length + 2 ≤ p.max) :
    Holds (pbufDrop p (front.length + 2)).1 l := by
  rw [pbufDrop, if_neg (by omega)]
  constructor
  · have hlen := h.dlen
    simp only [List.length_append, linkHeader_length] at hlen
    dsimp only
    omega
  · have hrest := (load_append_iff.mp h.bytes).2
    rwa [linkHeader_length] at hrest

theorem pbufDrop_max (h : n ≤ p.max) : (pbufDrop p n).1.max = p.max - n := by
  rw [pbufDrop, if_neg (by omega)]

theorem pbufDrop_new (size n : ℕ) : (pbufDrop (pbufNew (size + n)) n).1.offset = n := by
  rw [pbufDrop, if_neg (by simp [pbufNew])]
  simp [pbufNew]

theorem Pbuf.read_max (p : Pbuf) (frame : List Uchar) : (p.read frame).max = p.max := rfl

/-- A frame is cut to the room there is. -/
theorem holds_read (p : Pbuf) (frame : List Uchar) : Holds (p.read frame) (frame.take p.max) :=
  ⟨rfl, Wire.load_store⟩

/-- The part of a frame that is read when its header fits. -/
theorem holds_read_header (hmax : front.length + 2 ≤ p.max) :
    Holds (p.read (linkHeader front ++ l))
      (linkHeader front ++ l.take (p.max - (front.length + 2))) := by
  have hread := holds_read p (linkHeader front ++ l)
  rwa [List.take_append, linkHeader_length, List.take_of_length_le (by simpa using hmax)] at hread

theorem etherPktIn_holds (h : Holds p (linkHeader macs ++ l)) (hmacs : macs.length = 12)
    (hmax : 14 ≤ p.max) : ∃ pkt, etherPktIn p = .handled pkt ∧ Holds pkt l := by
  have htype := h.type
  rw [hmacs] at htype
  refine ⟨(pbufDrop p 14).1, by rw [etherPktIn, if_pos htype], ?_⟩
  have hdrop := h.drop (by omega)
  rwa [hmacs] at hdrop

/-- What `tuntap_do_read` leaves of a frame with something behind the header. -/
theorem tuntapDoRead_holds (hflags : flags.length = 2) (hmax : 4 < p.max) (hl : l ≠ []) :
    (tuntapDoRead p (linkHeader flags ++ l)).2 = 0 ∧
      (tuntapDoRead p (linkHeader flags ++ l)).1.max = p.max - 4 ∧
        Holds (tuntapDoRead p (linkHeader flags ++ l)).1 (l.take (p.max - 4)) := by
  have hread : Holds (p.read (linkHeader flags ++ l))
      (linkHeader flags ++ l.take (p.max - (flags.length + 2))) :=
    holds_read_header (by omega)
  rw [hflags] at hread
  have htype := hread.type
  have hdrop := hread.drop (by rw [hflags]; exact hmax.le)
  rw [hflags] at htype hdrop
  have hlong : (p.read (linkHeader flags ++ l)).dlen > 4 := by
    have hpos := List.length_pos_iff.mpr hl
    rw [hread.dlen]
    simp only [List.length_append, linkHeader_length, List.length_take]
    omega
  rw [tuntapDoRead, if_pos ⟨hlong, htype⟩]
  exact ⟨rfl, pbufDrop_max hmax.le, hdrop⟩

/-! ## Putting a header in front -/

/-- A header is being written: its first bytes are there, and behind its end the packet is. -/
structure Framing (p : Pbuf) (done : List Uchar) (n : ℕ) (l : List Uchar) : Prop where
  dlen : p.dlen = n + l.length
  done : load p.buf p.offset done.length = done
  rest : load p.buf (p.offset + n) l.length = l

theorem Framing.put {done a : List Uchar} (h : Framing p done n l)
    (hroom : done.length + a.length ≤ n) :
    Framing (p.put done.length a) (done ++ a) n l where
  dlen := h.dlen
  done := by
    refine load_append_iff.mpr ⟨?_, Wire.load_store⟩
    calc
      load (p.put done.length a).buf p.offset done.length = load p.buf p.offset done.length :=
        Wire.load_store_of_disjoint (.inl le_rfl)
      _ = done := h.done
  rest := by
    calc
      load (p.put done.length a).buf (p.offset + n) l.length = load p.buf (p.offset + n) l.length :=
        Wire.load_store_of_disjoint (.inr (by omega))
      _ = l := h.rest

theorem Framing.holds {done : List Uchar} (h : Framing p done n l) (hdone : done.length = n) :
    Holds p (done ++ l) where
  dlen := by
    rw [h.dlen, List.length_append, hdone]
    push_cast
    rfl
  bytes := load_append_iff.mpr ⟨h.done, hdone ▸ h.rest⟩

/-- `pbuf_raise` where there is room in front. -/
theorem Holds.raise (h : Holds p l) (hroom : n ≤ p.offset) :
    Framing (pbufRaise p n).1 [] n l ∧ (pbufRaise p n).1.offset = p.offset - n ∧
      (pbufRaise p n).2 ≠ -1 := by
  rw [pbufRaise, if_neg (by omega)]
  refine ⟨⟨?_, rfl, ?_⟩, rfl, ?_⟩
  · dsimp only
    rw [h.dlen, add_comm]
  · dsimp only
    rw [Nat.sub_add_cancel hroom]
    exact h.bytes
  · dsimp only
    omega

theorem tuntapDoSend_holds (h : Holds p l) (hroom : 4 ≤ p.offset) :
    (tuntapDoSend p).frame = linkHeader [0, 0] ++ l ∧ ∀ r ∈ (tuntapDoSend p).raised, r ≠ -1 := by
  obtain ⟨hraise, -, hret⟩ := h.raise hroom
  have hflags : Framing _ [0, 0] 4 l := hraise.put (a := [0, 0]) (by simp)
  have htype := hflags.put (a := bytes16 ethernetIpv6Type) (by simp [bytes16])
  exact ⟨(htype.holds (by simp [bytes16])).frame, by simpa [tuntapDoSend] using hret⟩

/-- What the driver's `send_frame` gets from `ether_send_unicast` and `ether_send_multicast`. -/
theorem etherSend_holds (i : IfaceEther) {dest : List Uchar} (h : Holds p l)
    (hroom : 14 ≤ p.offset) (hdest : dest.length = 6) (hhw : i.hwaddr.length = 6) :
    ∃ q r, etherSend i p dest = { i.sendFrame q with raised := r :: (i.sendFrame q).raised } ∧
      Holds q (linkHeader (dest ++ i.hwaddr) ++ l) ∧ q.offset = p.offset - 14 ∧ r ≠ -1 := by
  obtain ⟨hraise, hoffset, hret⟩ := h.raise hroom
  have hfst : Framing _ dest 14 l := hraise.put (a := dest) (by simp [hdest])
  have hsnd := hfst.put (a := i.hwaddr) (by omega)
  have hlast := hsnd.put (a := bytes16 ethernetIpv6Type) (by simp [bytes16, hdest, hhw])
  have hall := hlast.holds (by simp [bytes16, hdest, hhw])
  simp only [List.length_append, List.length_nil, hdest, hhw] at hall
  exact ⟨_, (pbufRaise p 14).2, rfl, hall, hoffset, hret⟩

theorem etherSend_socket (i : IfaceEther) {dest : List Uchar} (h : Holds p l)
    (hsend : i.sendFrame = socketSendFrame) (hroom : 14 ≤ p.offset) (hdest : dest.length = 6)
    (hhw : i.hwaddr.length = 6) :
    (etherSend i p dest).frame = linkHeader (dest ++ i.hwaddr) ++ l ∧
      ∀ r ∈ (etherSend i p dest).raised, r ≠ -1 := by
  obtain ⟨q, r, hq, hholds, -, hret⟩ := etherSend_holds i h hroom hdest hhw
  rw [hq, hsend]
  exact ⟨hholds.frame, by simpa [socketSendFrame] using hret⟩

theorem etherSend_tap (i : IfaceEther) {dest : List Uchar} (h : Holds p l)
    (hsend : i.sendFrame = tapSendFrame) (hroom : 18 ≤ p.offset) (hdest : dest.length = 6)
    (hhw : i.hwaddr.length = 6) :
    (etherSend i p dest).frame = linkHeader [0, 0] ++ (linkHeader (dest ++ i.hwaddr) ++ l) ∧
      ∀ r ∈ (etherSend i p dest).raised, r ≠ -1 := by
  obtain ⟨q, r, hq, hholds, hoffset, hret⟩ := etherSend_holds i h (by omega) hdest hhw
  obtain ⟨hframe, hraised⟩ := tuntapDoSend_holds hholds (by omega)
  rw [hq, hsend]
  refine ⟨hframe, fun x hx => ?_⟩
  rcases List.mem_cons.mp hx with rfl | hx
  · exact hret
  · exact hraised x hx

/-! ## The drivers -/

/-- The frame that carries a packet: two bytes of flags begin a tun header, two addresses an
Ethernet header. -/
def Driver.carrier : Driver → List Uchar → List Uchar → List Uchar → List Uchar
  | .tun, flags, _, packet => linkHeader flags ++ packet
  | .tap, flags, macs, packet => linkHeader flags ++ (linkHeader macs ++ packet)
  | _, _, macs, packet => linkHeader macs ++ packet

/-- The length up to which packets are received in full. -/
def Driver.room (drv : Driver) : ℕ := if drv = .tap then drv.newIf.mtu - 4 else drv.newIf.mtu

/-- `handle_packet` is called with a packet. -/
def Delivery.Of (packet : List Uchar) : Delivery → Prop
  | .handled pkt => Holds pkt packet
  | _ => False

/-- The packet is on the wire behind its headers, and every `pbuf_raise` has found room. -/
structure Sent.Of (drv : Driver) (packet dest : List Uchar) (sent : Sent) : Prop where
  frame : ∃ src : List Uchar, src.length = 6 ∧ sent.frame = drv.carrier [0, 0] (dest ++ src) packet
  raised : ∀ r ∈ sent.raised, r ≠ -1

/-- The buffer that the Ethernet drivers read into. -/
theorem etherBuffer_max (mtu : ℕ) {head : ℕ} (h : 14 ≤ head) :
    (pbufDrop (pbufNew (mtu + head)) (head - 14)).1.max = mtu + 14 := by
  rw [pbufDrop_max] <;> simp only [pbufNew] <;> omega

theorem tunReadCallback_holds {mtu : ℕ} (hflags : flags.length = 2) (hmtu : 0 < mtu)
    (hpacket : packet ≠ []) : ∃ pkt,
      tunReadCallback mtu (linkHeader flags ++ packet) = .handled pkt ∧
        Holds pkt (packet.take mtu) := by
  have hmax : 4 < (pbufNew (mtu + 4)).max := by
    simp only [pbufNew]
    omega
  obtain ⟨hret, -, hholds⟩ := tuntapDoRead_holds hflags hmax hpacket
  exact ⟨_, by rw [tunReadCallback]; exact if_pos hret, hholds⟩

/-- The buffer has no room for the tun header that comes with the frame. -/
theorem tapReadCallback_holds {i : IfaceEther} (hhead : i.headSize = 18) (hmtu : 4 < i.mtu)
    (hflags : flags.length = 2) (hmacs : macs.length = 12) : ∃ pkt,
      tapReadCallback i (linkHeader flags ++ (linkHeader macs ++ packet)) = .handled pkt ∧
        Holds pkt (packet.take (i.mtu - 4)) := by
  have hbuffer := etherBuffer_max i.mtu (by omega : 14 ≤ i.headSize)
  have hbehind : linkHeader macs ++ packet ≠ [] := by simp [linkHeader, bytes16]
  have hlong : 4 < (pbufDrop (pbufNew (i.mtu + i.headSize)) (i.headSize - 14)).1.max := by omega
  obtain ⟨-, hmax, hholds⟩ := tuntapDoRead_holds hflags hlong hbehind
  have hcut : (linkHeader macs ++ packet).take (i.mtu + 14 - 4) =
      linkHeader macs ++ packet.take (i.mtu - 4) := by
    rw [List.take_append, List.take_of_length_le, linkHeader_length, hmacs]
    · rfl
    · rw [linkHeader_length]
      omega
  rw [hbuffer, hcut] at hholds
  exact etherPktIn_holds hholds hmacs (by omega)

theorem socketReadCallback_holds {i : IfaceEther} (hhead : i.headSize = 14)
    (hmacs : macs.length = 12) : ∃ pkt,
      socketReadCallback i (linkHeader macs ++ packet) = .handled pkt ∧
        Holds pkt (packet.take i.mtu) := by
  have hbuffer := etherBuffer_max i.mtu (by omega : 14 ≤ i.headSize)
  have hread : Holds _ _ := holds_read_header (l := packet)
    (by rw [hbuffer]; omega : macs.length + 2 ≤
      (pbufDrop (pbufNew (i.mtu + i.headSize)) (i.headSize - 14)).1.max)
  have hroom : i.mtu + 14 - (macs.length + 2) = i.mtu := by omega
  rw [hbuffer, hroom] at hread
  have hpos := hread.dlen
  simp only [List.length_append, linkHeader_length] at hpos
  rw [socketReadCallback, if_neg (by omega)]
  exact etherPktIn_holds hread hmacs (by rw [Pbuf.read_max, hbuffer]; omega)

/-- What a driver hands over for the frame of a packet. -/
theorem Driver.receives (drv : Driver) (hpacket : packet ≠ []) (hflags : flags.length = 2)
    (hmacs : macs.length = 12) : ∃ pkt,
      drv.newIf.readCallback (drv.carrier flags macs packet) = .handled pkt ∧
        Holds pkt (packet.take drv.room) := by
  cases drv with
  | tun => exact tunReadCallback_holds hflags (by decide) hpacket
  | tap => exact tapReadCallback_holds (i := ifaceTap) rfl (by decide) hflags hmacs
  | _802ip port => exact socketReadCallback_holds (i := iface802ip port) rfl hmacs
  | umlSw pid => exact socketReadCallback_holds (i := ifaceUmlSw pid) rfl hmacs

/-- The hardware address of a multicast group. -/
def multicastAddr (dest : Mem Uchar) : List Uchar := 0x33 :: 0x33 :: load dest 12 4

theorem Driver.sends (drv : Driver) (size : ℕ) (dest : Mem Uchar) (h : Holds p packet)
    (hoffset : p.offset = (drv.newIf.getBuffer size).offset) :
    (drv.newIf.sendUnicast p dest).Of drv packet (load dest 0 6) ∧
      (drv.newIf.sendMulticast p dest).Of drv packet (multicastAddr dest) := by
  have hether (i : IfaceEther) : (etherGetBuffer i size).offset = i.headSize := pbufDrop_new _ _
  cases drv with
  | tun =>
      have hroom : p.offset = 4 := hoffset.trans (pbufDrop_new size 4)
      obtain ⟨hframe, hraised⟩ := tuntapDoSend_holds h hroom.ge
      have hsrc : (List.replicate 6 (0 : Uchar)).length = 6 := rfl
      exact ⟨⟨⟨_, hsrc, hframe⟩, hraised⟩, ⟨_, hsrc, hframe⟩, hraised⟩
  | tap =>
      have hroom : p.offset = 18 := hoffset.trans (hether ifaceTap)
      have hsend (d : List Uchar) (hd : d.length = 6) :
          (etherSend ifaceTap p d).Of .tap packet d := by
        obtain ⟨hframe, hraised⟩ := etherSend_tap ifaceTap h rfl hroom.ge hd rfl
        exact ⟨⟨_, rfl, hframe⟩, hraised⟩
      exact ⟨hsend _ (load_length _ _ _), hsend _ (by simp [multicastAddr])⟩
  | _802ip port =>
      have hroom : p.offset = 14 := hoffset.trans (hether (iface802ip port))
      have hsend (d : List Uchar) (hd : d.length = 6) :
          (etherSend (iface802ip port) p d).Of (._802ip port) packet d := by
        obtain ⟨hframe, hraised⟩ := etherSend_socket (iface802ip port) h rfl hroom.ge hd rfl
        exact ⟨⟨_, rfl, hframe⟩, hraised⟩
      exact ⟨hsend _ (load_length _ _ _), hsend _ (by simp [multicastAddr])⟩
  | umlSw pid =>
      have hroom : p.offset = 14 := hoffset.trans (hether (ifaceUmlSw pid))
      have hsend (d : List Uchar) (hd : d.length = 6) :
          (etherSend (ifaceUmlSw pid) p d).Of (.umlSw pid) packet d := by
        obtain ⟨hframe, hraised⟩ := etherSend_socket (ifaceUmlSw pid) h rfl hroom.ge hd rfl
        exact ⟨⟨_, rfl, hframe⟩, hraised⟩
      exact ⟨hsend _ (load_length _ _ _), hsend _ (by simp [multicastAddr])⟩

/-- A packet passes a driver in both directions, whatever is in its headers. -/
structure Passes (drv : Driver) (packet : List Uchar) : Prop where
  received : ∀ flags macs : List Uchar, flags.length = 2 → macs.length = 12 →
    (drv.newIf.readCallback (drv.carrier flags macs packet)).Of packet
  sent : ∀ (size : ℕ) (buf dest : Mem Uchar),
    let p := { drv.newIf.getBuffer size with buf, dlen := packet.length }
    load buf p.offset packet.length = packet →
      (drv.newIf.sendUnicast p dest).Of drv packet (load dest 0 6) ∧
        (drv.newIf.sendMulticast p dest).Of drv packet (multicastAddr dest)

theorem Holds.unique {l' : List Uchar} (h : Holds p l) (h' : Holds p l') : l = l' := by
  rw [← h.frame, ← h'.frame]

/-- A packet passes exactly if there is room for it. -/
theorem passes_of_room (drv : Driver) (hpacket : packet ≠ []) :
    Passes drv packet ↔ packet.length ≤ drv.room := by
  constructor
  · intro h
    have hflags : (List.replicate 2 (0 : Uchar)).length = 2 := rfl
    have hmacs : (List.replicate 12 (0 : Uchar)).length = 12 := rfl
    obtain ⟨pkt, hread, hholds⟩ := drv.receives hpacket hflags hmacs
    have hof := h.received _ _ hflags hmacs
    rw [hread] at hof
    exact List.take_eq_self_iff _ |>.mp (hholds.unique hof)
  · intro hroom
    constructor
    · intro flags macs hflags hmacs
      obtain ⟨pkt, hread, hholds⟩ := drv.receives hpacket hflags hmacs
      rw [List.take_of_length_le hroom] at hholds
      rw [hread]
      exact hholds
    · intro size buf dest p hload
      exact drv.sends size dest ⟨rfl, hload⟩ rfl

/-- Every packet up to the MTU passes every driver, except the last four lengths through the tap
driver. -/
theorem passes_iff (drv : Driver) (packet : List Uchar) (hheader : 40 ≤ packet.length)
    (hmtu : packet.length ≤ drv.newIf.mtu) :
    Passes drv packet ↔ (drv = .tap → packet.length ≤ drv.newIf.mtu - 4) := by
  have hpacket : packet ≠ [] := by
    rintro rfl
    simp at hheader
  rw [passes_of_room drv hpacket, Driver.room]
  split
  · next htap => simp [htap]
  · next hother => simp [hother, hmtu]

/-- A packet of the MTU. -/
def fullPacket : List Uchar := List.replicate 1280 0x60

theorem fullPacket_length : fullPacket.length = 1280 := List.length_replicate

/-- It passes the tun driver. -/
theorem passes_iff_tun : Passes .tun fullPacket :=
  (passes_iff .tun fullPacket (by rw [fullPacket_length]; decide) fullPacket_length.le).mpr
    fun h => by cases h

/-- It does not pass the tap driver. -/
theorem full_packet_cut : ¬∀ (drv : Driver) (packet : List Uchar), 40 ≤ packet.length →
    packet.length ≤ drv.newIf.mtu → Passes drv packet := by
  intro hall
  have hheader : 40 ≤ fullPacket.length := by
    rw [fullPacket_length]
    decide
  have hpacket : fullPacket ≠ [] := List.ne_nil_of_length_pos (by omega)
  have hpass := hall .tap fullPacket hheader fullPacket_length.le
  have hroom := (passes_of_room .tap hpacket).mp hpass
  rw [fullPacket_length] at hroom
  exact absurd hroom (by decide)

end Ptrtd.Link
