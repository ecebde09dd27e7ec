import Ptrtd.Model.Bridge
import Ptrtd.Verification.Link.Correctness

/-! # Packets over the bridge

A packet of the host goes through the tap interface of one bridge, the multicast group, and the
tap interface of another, or it is handed to the daemon; a packet of the daemon goes to the host.
Only the address of the sender decides whether a bridge lets it pass. -/

namespace Ptrtd.Link

open Circular (Mem load load_length)

open Wire (bytes16)

variable {p : Pbuf} {flags proto dst src type packet l : List Uchar} {a b : ℕ}

/-- What `_802ip_new_if` has put in the hardware address, and `init_ifs` gives to the host. -/
def hwaddr802ip (port : ℕ) : List Uchar := (iface802ip port).hwaddr

theorem hwaddr802ip_length (port : ℕ) : (hwaddr802ip port).length = 6 := rfl

theorem hwaddr802ip_inj : hwaddr802ip a = hwaddr802ip b ↔ a % 256 = b % 256 := by
  have hbyte : hwaddr802ip a = hwaddr802ip b ↔
      (UInt8.ofNat (a % 256) : Uchar) = UInt8.ofNat (b % 256) := by
    simp [hwaddr802ip, iface802ip]
  rw [hbyte]
  constructor
  · intro h
    have hnat := congrArg UInt8.toNat h
    rw [UInt8.toNat_ofNat', UInt8.toNat_ofNat'] at hnat
    omega
  · intro h
    rw [h]

/-! ## The two callbacks -/

/-- A frame of the tap interface is sent without the tun header, if it has an IPv6 packet. -/
theorem tapRead_ipv6 (a : ℕ) (packet : List Uchar) (hflags : flags.length = 2)
    (hmacs : (dst ++ src).length = 12) :
    (initIfs a).tapReadCallback (linkHeader flags ++ (linkHeader (dst ++ src) ++ packet)) =
      .sent ⟨linkHeader (dst ++ src) ++ packet.take 1276, []⟩ := by
  have hbehind : linkHeader (dst ++ src) ++ packet ≠ [] := by simp [linkHeader, bytes16]
  obtain ⟨-, -, hholds⟩ := tuntapDoRead_holds (p := (pbufDrop (pbufNew (1280 + 18)) 4).1) hflags
    (by decide) hbehind
  have hcut : (linkHeader (dst ++ src) ++ packet).take
      ((pbufDrop (pbufNew (1280 + 18)) 4).1.max - 4) =
        linkHeader (dst ++ src) ++ packet.take 1276 := by
    rw [List.take_append, List.take_of_length_le, linkHeader_length, hmacs]
    · rfl
    · rw [linkHeader_length, hmacs]
      decide
  rw [hcut] at hholds
  exact congrArg (fun f => Forwarding.sent ⟨f, []⟩) hholds.frame

/-- A datagram that fits is handed over as it is, with room for a tun header. -/
theorem ipRead_holds (b : ℕ) (hl : l ≠ []) (hroom : l.length ≤ 1294) : ∃ pkt, Holds pkt l ∧
    pkt.offset = 4 ∧ (initIfs b)._802ipReadCallback l = (initIfs b).handle802ipFrame pkt := by
  have hread := holds_read (pbufDrop (pbufNew (1280 + 18)) 4).1 l
  rw [List.take_of_length_le (show l.length ≤ (pbufDrop (pbufNew (1280 + 18)) 4).1.max from hroom)]
    at hread
  refine ⟨_, hread, rfl, ?_⟩
  have hpos := List.length_pos_iff.mpr hl
  have hlong : ¬((pbufDrop (pbufNew (1280 + 18)) 4).1.read l).dlen ≤ 0 := by
    rw [hread.dlen]
    omega
  exact if_neg hlong

theorem Holds.at {front rest : List Uchar} (h : Holds p (front ++ (l ++ rest))) :
    load p.buf (p.offset + front.length) l.length = l :=
  (load_append_iff.mp (load_append_iff.mp h.bytes).2).1

/-- The frame of an IPv6 packet passes unless the sender has the address of the bridge. -/
theorem handle802ipFrame_ipv6 (b : ℕ) (hdst : dst.length = 6) (hsrc : src.length = 6)
    (h : Holds p (linkHeader (dst ++ src) ++ packet)) (hoffset : p.offset = 4) :
    if src = hwaddr802ip b then (initIfs b).handle802ipFrame p = .ignored
    else ∃ s, (initIfs b).handle802ipFrame p = .sent s ∧
      s.frame = linkHeader [0, 0] ++ (linkHeader (dst ++ src) ++ packet) ∧
        ∀ r ∈ s.raised, r ≠ -1 := by
  have htype : p.get16 12 = ethernetIpv6Type := by
    have htype := h.type
    rwa [List.length_append, hdst, hsrc] at htype
  have hsource : load p.buf (p.offset + 6) 6 = src := by
    have hsplit : linkHeader (dst ++ src) ++ packet =
        dst ++ (src ++ (bytes16 ethernetIpv6Type ++ packet)) := by simp [linkHeader]
    have hsource := Holds.at (hsplit ▸ h)
    rwa [hdst, hsrc] at hsource
  have hcallback : (initIfs b).handle802ipFrame p =
      if src ≠ hwaddr802ip b then .sent (tuntapDoSend p) else .ignored := by
    rw [Bridge.handle802ipFrame, hsource]
    simp only [htype, true_and]
    rfl
  by_cases heq : src = hwaddr802ip b
  · rw [if_pos heq, hcallback, if_neg (not_not.mpr heq)]
  · obtain ⟨hframe, hraised⟩ := tuntapDoSend_holds h hoffset.ge
    rw [if_neg heq, hcallback, if_pos heq]
    exact ⟨_, rfl, hframe, hraised⟩

theorem ipRead_ipv6 (b : ℕ) (hdst : dst.length = 6) (hsrc : src.length = 6)
    (hroom : packet.length ≤ 1280) :
    if src = hwaddr802ip b then
      (initIfs b)._802ipReadCallback (linkHeader (dst ++ src) ++ packet) = .ignored
    else ∃ s, (initIfs b)._802ipReadCallback (linkHeader (dst ++ src) ++ packet) = .sent s ∧
      s.frame = linkHeader [0, 0] ++ (linkHeader (dst ++ src) ++ packet) ∧
        ∀ r ∈ s.raised, r ≠ -1 := by
  have hne : linkHeader (dst ++ src) ++ packet ≠ [] := by simp [linkHeader, bytes16]
  have hlen : (linkHeader (dst ++ src) ++ packet).length ≤ 1294 := by
    rw [List.length_append, linkHeader_length, List.length_append, hdst, hsrc]
    omega
  obtain ⟨pkt, hholds, hoffset, hread⟩ := ipRead_holds b hne hlen
  rw [hread]
  exact handle802ipFrame_ipv6 b hdst hsrc hholds hoffset

/-! ## Between hosts -/

/-- The daemon and a bridge on one host, which have bound two ports: what the daemon sends, to one
address or to a group, is at the tap interface of the host, and what the host sends there comes to
`handle_packet`, as long as it leaves room for the tun header. -/
theorem bridge_to_daemon (ha : 0x6400 ≤ a ∧ a < 0x6500) (hb : 0x6400 ≤ b ∧ b < 0x6500)
    (hab : a ≠ b) (hpacket : packet.length ≤ 1276) :
    (∀ flags dst src : List Uchar, flags.length = 2 → dst.length = 6 → src.length = 6 →
      ∃ datagram, (initIfs b).tapReadCallback
          (linkHeader flags ++ (linkHeader (dst ++ src) ++ packet)) = .sent datagram ∧
        ((_802ipNewIf a).readCallback datagram.frame).Of packet) ∧
      ∀ (p : Pbuf) (size : ℕ) (dest : Mem Uchar), Holds p packet →
        p.offset = ((_802ipNewIf a).getBuffer size).offset →
          (∃ s, (initIfs b)._802ipReadCallback ((_802ipNewIf a).sendUnicast p dest).frame =
            .sent s ∧ s.frame =
              linkHeader [0, 0] ++ (linkHeader (load dest 0 6 ++ hwaddr802ip a) ++ packet)) ∧
            ∃ s, (initIfs b)._802ipReadCallback ((_802ipNewIf a).sendMulticast p dest).frame =
              .sent s ∧ s.frame =
                linkHeader [0, 0] ++
                  (linkHeader (multicastAddr dest ++ hwaddr802ip a) ++ packet) := by
  constructor
  · intro flags dst src hflags hdst hsrc
    have hmacs : (dst ++ src).length = 12 := by rw [List.length_append, hdst, hsrc]
    have hsent := tapRead_ipv6 b packet hflags hmacs
    rw [List.take_of_length_le hpacket] at hsent
    refine ⟨_, hsent, ?_⟩
    have hsocket : ∃ pkt,
        socketReadCallback (iface802ip a) (linkHeader (dst ++ src) ++ packet) = .handled pkt ∧
          Holds pkt (packet.take (iface802ip a).mtu) := socketReadCallback_holds rfl hmacs
    obtain ⟨pkt, hread, hholds⟩ := hsocket
    have hmtu : packet.length ≤ (iface802ip a).mtu := hpacket.trans (show 1276 ≤ 1280 by decide)
    rw [List.take_of_length_le hmtu] at hholds
    have hcallback : (_802ipNewIf a).readCallback (linkHeader (dst ++ src) ++ packet) =
        .handled pkt := hread
    rw [hcallback]
    exact hholds
  · intro p size dest hholds hoffset
    have hroom : 14 ≤ p.offset := (hoffset.trans (pbufDrop_new size 14)).ge
    have hother : hwaddr802ip a ≠ hwaddr802ip b := by
      rw [ne_eq, hwaddr802ip_inj]
      obtain ⟨hlow, hhigh⟩ := ha
      obtain ⟨hlow', hhigh'⟩ := hb
      omega
    have hpass : ∀ d : List Uchar, d.length = 6 → ∃ s,
        (initIfs b)._802ipReadCallback (etherSend (iface802ip a) p d).frame = .sent s ∧
          s.frame = linkHeader [0, 0] ++ (linkHeader (d ++ hwaddr802ip a) ++ packet) := by
      intro d hd
      obtain ⟨hframe, -⟩ := etherSend_socket (iface802ip a) hholds rfl hroom hd rfl
      have hforward := ipRead_ipv6 b hd (hwaddr802ip_length a) (hpacket.trans (by decide))
      rw [if_neg hother] at hforward
      obtain ⟨s, hs, hsframe, -⟩ := hforward
      exact ⟨s, by rw [hframe]; exact hs, hsframe⟩
    exact ⟨hpass _ (load_length _ _ _), hpass _ (by simp)⟩

theorem bridge_to_daemon_first : ∃ datagram,
    (initIfs 0x6401).tapReadCallback (linkHeader [0, 0] ++
      (linkHeader (hwaddr802ip 0x6400 ++ hwaddr802ip 0x6401) ++ fullPacket.take 1276)) =
        .sent datagram ∧
      ((_802ipNewIf 0x6400).readCallback datagram.frame).Of (fullPacket.take 1276) := by
  have hlength : (fullPacket.take 1276).length ≤ 1276 := by
    rw [List.length_take]
    exact min_le_left _ _
  obtain ⟨hin, -⟩ := bridge_to_daemon (a := 0x6400) (b := 0x6401) (by decide) (by decide)
    (by decide) hlength
  exact hin [0, 0] (hwaddr802ip 0x6400) (hwaddr802ip 0x6401) rfl rfl rfl

/-! ## Other protocols -/

theorem Holds.get16_ne {front rest : List Uchar} (hl : l.length = 2) (hne : l ≠ [0x86, 0xdd])
    (h : Holds p (front ++ (l ++ rest))) : p.get16 front.length ≠ ethernetIpv6Type := by
  have hbytes := h.at
  rw [hl] at hbytes
  intro heq
  refine hne ?_
  have hfst := (p.buf (p.offset + front.length)).toNat_lt
  have hsnd := (p.buf (p.offset + front.length + 1)).toNat_lt
  rw [Pbuf.get16, Wire.get16, ethernetIpv6Type] at heq
  have hhigh : p.buf (p.offset + front.length) = 0x86 :=
    UInt8.toNat_inj.mp (show _ = 134 by omega)
  have hlow : p.buf (p.offset + front.length + 1) = 0xdd :=
    UInt8.toNat_inj.mp (show _ = 221 by omega)
  rw [← hbytes, ← hhigh, ← hlow]
  rfl

/-- What is not an IPv6 packet is sent with the tun header in front, so that a bridge looks for
the type in the address of the sender. It is not there in a frame of a host that has the address
of its bridge. -/
theorem bridge_other (a b : ℕ) (hflags : flags.length = 2) (hproto : proto.length = 2)
    (hdst : dst.length = 6) (hne : proto ≠ [0x86, 0xdd]) : ∃ datagram,
      (initIfs a).tapReadCallback (flags ++ (proto ++ (dst ++ (hwaddr802ip a ++ l)))) =
        .sent datagram ∧ (initIfs b)._802ipReadCallback datagram.frame = .ignored := by
  obtain ⟨q, hq⟩ : ∃ q, q = (pbufDrop (pbufNew (1280 + 18)) 4).1 := ⟨_, rfl⟩
  have hmax : q.max = 1294 := by rw [hq]; rfl
  have hread := holds_read q (flags ++ (proto ++ (dst ++ (hwaddr802ip a ++ l))))
  have hcut : (flags ++ (proto ++ (dst ++ (hwaddr802ip a ++ l)))).take q.max =
      flags ++ (proto ++ (dst ++ (hwaddr802ip a ++ l.take 1278))) := by
    rw [hmax]
    simp [List.take_append, List.take_of_length_le, hflags, hproto, hdst, hwaddr802ip_length]
  rw [hcut] at hread
  have htype := Holds.get16_ne hproto hne hread
  rw [hflags] at htype
  have hsent : (initIfs a).tapReadCallback (flags ++ (proto ++ (dst ++ (hwaddr802ip a ++ l)))) =
      .sent ⟨flags ++ (proto ++ (dst ++ (hwaddr802ip a ++ l.take 1278))), []⟩ := by
    have hcallback : (initIfs a).tapReadCallback
        (flags ++ (proto ++ (dst ++ (hwaddr802ip a ++ l)))) =
          .sent ⟨(tuntapDoRead q (flags ++ (proto ++ (dst ++ (hwaddr802ip a ++ l))))).1.frame,
            []⟩ :=
      hq ▸ rfl
    rw [hcallback, tuntapDoRead, if_neg fun hipv6 => htype hipv6.2, hread.frame]
  refine ⟨_, hsent, ?_⟩
  have hnonempty : flags ++ (proto ++ (dst ++ (hwaddr802ip a ++ l.take 1278))) ≠ [] := by
    refine List.ne_nil_of_length_pos ?_
    rw [List.length_append, hflags]
    omega
  have hroom : (flags ++ (proto ++ (dst ++ (hwaddr802ip a ++ l.take 1278)))).length ≤ 1294 := by
    simp only [List.length_append, List.length_take, hflags, hproto, hdst, hwaddr802ip_length]
    omega
  obtain ⟨pkt, hholds, -, hcallback⟩ := ipRead_holds b hnonempty hroom
  -- the two bytes where a bridge expects the type
  have hsplit : flags ++ (proto ++ (dst ++ (hwaddr802ip a ++ l.take 1278))) =
      (flags ++ proto ++ dst ++ (hwaddr802ip a).take 2) ++
        ([0xaa, 0xaa] ++ ([0xaa, 0xaa] ++ l.take 1278)) := by
    simp [hwaddr802ip, iface802ip]
  have hother := Holds.get16_ne rfl (by decide) (hsplit ▸ hholds)
  have hfront : (flags ++ proto ++ dst ++ (hwaddr802ip a).take 2).length = 12 := by
    simp [hflags, hproto, hdst, hwaddr802ip_length]
  rw [hfront] at hother
  rw [hcallback, Bridge.handle802ipFrame, if_neg fun hipv6 => hother hipv6.1]

/-- A request for an IPv4 address. -/
theorem bridge_other_arp : ∃ datagram,
    (initIfs 0x6400).tapReadCallback ([0, 0] ++ ([0x08, 0x06] ++
      (List.replicate 6 0xff ++ (hwaddr802ip 0x6400 ++ [0x08, 0x06])))) = .sent datagram ∧
        (initIfs 0x6401)._802ipReadCallback datagram.frame = .ignored :=
  bridge_other 0x6400 0x6401 rfl rfl rfl (by decide)

end Ptrtd.Link
