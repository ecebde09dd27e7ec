import Ptrtd.Model.HandlePacket
import Ptrtd.Verification.Neighbor.Cache
import Ptrtd.Verification.Receive.Unacceptable
import Ptrtd.Verification.Table.Ports
import Ptrtd.Verification.Udp.RoundTrip

/-! # Length fields of received packets

None of the handlers compares the length of a packet with its headers, and none reads the payload
length field. A packet is handled as its fields say when it happens to have the length they say,
and when its protocol does nothing with it. -/

namespace Ptrtd.Wire

open Transition
open Circular (load load_length)
open Table (Addr TcbNode)

variable {a c c' : Conn} {s : Segment} {now : Timeval}

/-! ## Segments that are taken -/

theorem reachesRecvData_cases (h : reachesRecvData c s now = true) : s.isRst = false ∧
    ∃ a, handleAck c s now = some (.next a) ∧ ¬s.seq < a.tcb.rcvNxt ∧
      receives a.tcb.state = true := by
  rw [reachesRecvData, Bool.and_eq_true, Bool.not_eq_true'] at h
  refine ⟨h.1, ?_⟩
  have hnext := h.2
  split at hnext
  · next a ha =>
      rw [Bool.and_eq_true, Bool.not_eq_true', decide_eq_false_iff_not] at hnext
      refine ⟨a, ha, hnext.1, ?_⟩
      have hstate := hnext.2
      split at hstate
      · next hs => rw [hs]; rfl
      · next hs => rw [hs]; rfl
      · next hs => rw [hs]; rfl
      · cases hstate
  · cases hnext

theorem reachesRecvData_of (hrst : s.isRst = false) (ha : handleAck c s now = some (.next a))
    (hseq : ¬s.seq < a.tcb.rcvNxt) (hstate : receives a.tcb.state = true) :
    reachesRecvData c s now = true := by
  rw [reachesRecvData, hrst, ha]
  simp only [Bool.not_false, Bool.true_and, hseq, decide_false]
  cases hs : a.tcb.state <;> simp [hs, receives] at hstate ⊢

/-- A segment that does not get to `tcp_recv_data` is handled without a look at its data. -/
theorem handleTcp_ignores (h : reachesRecvData c s now = false) (l : List Uchar) :
    Ptrtd.handleTcp c { s with data := l } now = Ptrtd.handleTcp c s now := by
  have hack : handleAck c { s with data := l } now = handleAck c s now := rfl
  rw [Ptrtd.handleTcp, Ptrtd.handleTcp, hack]
  by_cases hrst : s.isRst = true
  · rw [if_pos hrst]
    exact if_pos hrst
  · rw [if_neg hrst]
    refine (if_neg hrst).trans ?_
    cases hf : handleAck c s now with
    | none => rfl
    | some f =>
        cases f with
        | done a => rfl
        | next a =>
            simp only [Option.bind_some]
            split
            · rfl
            · next hseq =>
                have hnot : ¬receives (handleWindow a s).tcb.state = true := by
                  intro hstate
                  obtain ⟨m, n, e, heq⟩ := handleWindow_eq a s
                  rw [heq] at hstate
                  have htaken := reachesRecvData_of (Bool.eq_false_iff.mpr hrst) hf hseq hstate
                  rw [h] at htaken
                  cases htaken
                have hwindow : handleWindow a { s with data := l } = handleWindow a s := rfl
                rw [hwindow, handleData, handleData]
                cases hs : (handleWindow a s).tcb.state <;>
                  first
                  | rfl
                  | (rw [hs] at hnot; exact absurd rfl hnot)

/-- One that does is passed to it by `handle_tcp`'s last switch. -/
theorem handleTcp_recvData (h : reachesRecvData c s now = true) :
    ∃ a, receives a.tcb.state = true ∧ Ptrtd.handleTcp c s now = handleData a s now := by
  obtain ⟨hrst, a, ha, hseq, hstate⟩ := reachesRecvData_cases h
  refine ⟨handleWindow a s, ?_, ?_⟩
  · obtain ⟨m, n, e, heq⟩ := handleWindow_eq a s
    rw [heq]
    exact hstate
  · rw [Ptrtd.handleTcp, if_neg (by simp [hrst]), ha]
    exact if_neg hseq

/-- In `ESTABLISHED` a segment that is neither a reset nor old sets the window and is taken. -/
theorem handleTcp_established (now : Timeval) (h : Sound c) (hest : c.tcb.state = .established)
    (hrst : s.isRst = false) (hseq : ¬s.seq < c.tcb.rcvNxt) :
    reachesRecvData c s now = true ∧ ∃ c', Ptrtd.handleTcp c s now = some c' ∧
      c'.tcb.sndWnd = s.wnd.setWidth 32 := by
  obtain ⟨f, hf, -⟩ := h.handleAck s now
  obtain ⟨a, rfl, hadv, hstate⟩ := handleAck_advanced (by rw [hest]; rfl) hf
  have hopen : a.tcb.state = .established := by
    rw [hstate, if_neg, hest]
    rintro ⟨hfin, -⟩
    rw [hest] at hfin
    cases hfin
  have hnot : ¬s.seq < a.tcb.rcvNxt := by
    rw [hadv.rcvNxt]
    exact hseq
  refine ⟨reachesRecvData_of hrst hf hnot (by rw [hopen]; rfl), ?_⟩
  obtain ⟨c', hc'⟩ := Option.isSome_iff_exists.mp (h.handleTcp s now)
  refine ⟨c', hc', ?_⟩
  rw [Ptrtd.handleTcp, if_neg (by simp [hrst]), hf] at hc'
  have hdata : handleData (handleWindow a s) s now = some c' := (if_neg hnot).symm.trans hc'
  exact (handleData_window hdata).1.2.trans (handleWindow_set a s).1

/-! ## Packets that are respected -/

namespace Recv

/-- The end of the header that the next header field announces. -/
def headerEnd (r : Recv) : ℕ := if r.d 6 = 6 then r.doff else 48

/-- Too short for its IPv6 header and the TCP, UDP or ICMP header behind it. -/
def TooShort (r : Recv) : Prop :=
  r.d 6 = 6 ∧ ((r.d 52).toNat / 16 < 5 ∨ r.len < r.doff) ∨
    (r.d 6 = 17 ∨ r.d 6 = 58) ∧ r.len < 48

instance (r : Recv) : Decidable r.TooShort := inferInstanceAs (Decidable (_ ∨ _))

/-- The bytes from the end of the header to the end that the payload length field gives. -/
def body (r : Recv) : List Uchar := load r.d r.headerEnd (40 + get16 r.d 4 - r.headerEnd)

/-- Behind the header there are as many bytes as the payload length field says. -/
def Exact (r : Recv) : Prop := r.len - r.headerEnd = 40 + get16 r.d 4 - r.headerEnd

instance (r : Recv) : Decidable r.Exact := inferInstanceAs (Decidable (_ = _))

theorem headerEnd_eq {r : Recv} (hnext : r.d 6 = 17 ∨ r.d 6 = 58) : r.headerEnd = 48 := by
  rw [headerEnd, if_neg]
  rcases hnext with h | h <;> simp [h]

theorem tooShort_iff {r : Recv} (hnext : r.d 6 = 17 ∨ r.d 6 = 58) :
    r.TooShort ↔ r.len < 48 := by
  constructor
  · rintro (⟨htcp, -⟩ | ⟨-, hlen⟩)
    · rw [htcp] at hnext
      rcases hnext with h | h <;> cases h
    · exact hlen
  · exact fun hlen => .inr ⟨hnext, hlen⟩

theorem body_eq_iff (r : Recv) :
    load r.d r.headerEnd (r.len - r.headerEnd) = r.body ↔ r.Exact := by
  constructor
  · intro h
    have hlen := congrArg List.length h
    rwa [body, load_length, load_length] at hlen
  · intro h
    rw [body, ← h]

end Recv

/-- A state in which the daemon can be when it receives a packet. -/
structure Daemon.Valid (rb : Table.Rebalance) (iface : Iface) (d : Daemon) : Prop where
  tcbs : Table.TableReached rb d.tcbs
  conn : ∀ t ∈ d.tcbs.live, t.listening = false → ∃ c, d.get t = some c ∧ c.self = t.addr ∧
    c.live = true ∧ Reached Always c
  udp : Run udpStep Always Udp.init d.udp
  nd : ∃ l, Run (cacheStep iface) Always (Nd.init, []) (d.nd, l)

/-- Nothing of the state has changed. What has been sent is not part of it. -/
structure Daemon.Same (d d' : Daemon) : Prop where
  tcbs : d'.tcbs = d.tcbs
  conn : ∀ a, (d'.conn a).map (fun c => (c.tcb, c.live, c.map)) =
    (d.conn a).map fun c => (c.tcb, c.live, c.map)
  ev : d'.ev = d.ev
  isn : d'.isn = d.isn
  listening : d'.udp.listening = d.udp.listening
  ulist : d'.udp.ulist = d.udp.ulist
  nlist : d'.nd.nlist = d.nd.nlist

/-- A packet that is too short changes nothing and has no negative number of bytes copied, of
another just the bytes of its body are taken, and nothing is written past the end of the buffer. -/
structure Respected (r : Recv) (d : Daemon) (h : Handled) : Prop where
  short : r.TooShort → d.Same h.daemon ∧ ∀ x, h.taken = some x → 0 ≤ x.count
  exact : ¬r.TooShort → ∀ x, h.taken = some x → x.data = r.body
  inside : ∀ i, h.terminator = some i → i < r.cap

/-- The packet is handled so on every interface and in every state. -/
def Respects (rb : Table.Rebalance) (r : Recv) : Prop :=
  ∀ iface d now fd res h, Daemon.Valid rb iface d →
    handlePacket rb iface d r now fd res = some h → Respected r d h

/-- What a packet has to be for that. A TCP segment to port 0 meets no connection, and a reset has
its data ignored. -/
structure WellFramed (r : Recv) : Prop where
  tcp : r.d 6 = 6 →
    if r.TooShort then get16 r.d 42 = 0 ∧ r.d 8 = 0xff
    else get16 r.d 42 = 0 ∨ r.segment.isRst = true ∨
      r.Exact ∧ (r.doff < r.len → r.len < r.cap)
  udp : r.d 6 = 17 → ¬r.TooShort ∧ r.Exact
  icmp : r.d 6 = 58 → (r.d 40 = 128 → ¬r.TooShort ∧ r.Exact) ∧ (r.d 40 = 136 → ¬r.TooShort)

variable {rb : Table.Rebalance} {iface : Iface} {d d' : Daemon} {r : Recv} {h : Handled}
  {fd : ℤ} {res : ConnectResult} {t : TcbNode}

/-! ## Dispatch -/

theorem handlePacket_tcp (hnext : r.d 6 = 6) :
    handlePacket rb iface d r now fd res = d.handleTcp rb iface r now res := by
  rw [handlePacket, hnext]
  rfl

theorem handlePacket_udp (hnext : r.d 6 = 17) :
    handlePacket rb iface d r now fd res = some (d.handleUdp r fd) := by
  rw [handlePacket, hnext]
  rfl

theorem handlePacket_icmp (hnext : r.d 6 = 58) :
    handlePacket rb iface d r now fd res = some (d.handleIcmp iface r) := by
  rw [handlePacket, hnext]
  rfl

/-- Every other packet is dropped, or answered by an error. -/
theorem handlePacket_other (htcp : r.d 6 ≠ 6) (hudp : r.d 6 ≠ 17) (hicmp : r.d 6 ≠ 58)
    (hx : handlePacket rb iface d r now fd res = some h) :
    h.taken = none ∧ h.terminator = none := by
  rw [handlePacket] at hx
  split at hx
  · next hnext => exact absurd hnext hicmp
  · next hnext => exact absurd hnext htcp
  · next hnext => exact absurd hnext hudp
  · obtain rfl := Option.some.inj hx
    exact ⟨rfl, rfl⟩
  · obtain rfl := Option.some.inj hx
    exact ⟨rfl, rfl⟩

theorem Respected.of_untaken (hshort : ¬r.TooShort) (htaken : h.taken = none)
    (hterm : h.terminator = none) : Respected r d h := by
  refine ⟨fun hbad => absurd hbad hshort, ?_, ?_⟩
  · intro _ x hx
    rw [htaken] at hx
    cases hx
  · intro i hi
    rw [hterm] at hi
    cases hi

/-- What is taken from a TCP segment is its data, for a connection that the segment finds. -/
theorem Daemon.handleTcp_taken (hx : d.handleTcp rb iface r now res = some h) :
    h.taken = none ∧ h.terminator = none ∨
      r.segment.isRst = false ∧ (∃ t, r.arrival.find d.tcbs.root = some (some t) ∧
        t.listening = false) ∧ (∀ x, h.taken = some x → x.data = r.segment.data) ∧
        ∀ i, h.terminator = some i → r.segment.data.length > 0 ∧ i = r.len := by
  obtain ⟨found, hfind, hx⟩ := Option.bind_eq_some_iff.mp hx
  cases found with
  | none =>
      obtain rfl := Option.some.inj hx
      exact .inl ⟨rfl, rfl⟩
  | some t =>
      dsimp only at hx
      split at hx
      · split at hx
        · obtain ⟨c, -, hx⟩ := Option.bind_eq_some_iff.mp hx
          obtain ⟨d', -, rfl⟩ := Option.map_eq_some_iff.mp hx
          exact .inl ⟨rfl, rfl⟩
        · obtain rfl := Option.some.inj hx
          exact .inl ⟨rfl, rfl⟩
      · next hconn =>
          obtain ⟨c, -, hx⟩ := Option.bind_eq_some_iff.mp hx
          obtain ⟨c', -, hx⟩ := Option.bind_eq_some_iff.mp hx
          obtain ⟨d', -, rfl⟩ := Option.map_eq_some_iff.mp hx
          dsimp only
          by_cases hreach : reachesRecvData (c.receive r.segment) r.segment now = true
          · refine .inr ⟨(reachesRecvData_cases hreach).1,
              ⟨t, hfind, Bool.eq_false_iff.mpr hconn⟩, ?_, ?_⟩
            · intro x hx
              rw [if_pos hreach] at hx
              obtain rfl := Option.some.inj hx
              rfl
            · intro i hi
              split at hi
              · next hdata => exact ⟨hdata.2, (Option.some.inj hi).symm⟩
              · cases hi
          · refine .inl ⟨if_neg hreach, if_neg ?_⟩
            exact fun hboth => hreach hboth.1

/-- What is taken from a datagram is what goes out over IPv4. -/
theorem Daemon.handleUdp_sends {x : Payload} (hx : (d.handleUdp r fd).taken = some x) :
    ∃ um : UdpMap, (d.handleUdp r fd).daemon.udp.sent4 = d.udp.sent4 ++
      [⟨um.fd, x.data, x.count, embedded (getAddr r.d 24), get16 r.d 42⟩] := by
  rw [Daemon.handleUdp] at hx ⊢
  dsimp only at hx ⊢
  rw [Udp.handleUdp]
  split at hx
  · next hlisten =>
      obtain rfl := Option.some.inj hx
      rw [if_pos hlisten, Udp.incoming]
      refine ⟨(d.udp.getMap r.src (get16 r.d 40) fd).2, ?_⟩
      have hsent : (d.udp.getMap r.src (get16 r.d 40) fd).1.sent4 = d.udp.sent4 := by
        rw [Udp.getMap]
        split <;> rfl
      simp only [hsent]
  · cases hx

theorem Recv.lport_toNat (r : Recv) : r.arrival.lport.toNat = get16 r.d 42 :=
  Nat.mod_eq_of_lt (get16_lt _ _)

/-- What an echo reply returns is what stands behind the header of the request. -/
theorem echo_data (hlen : 48 ≤ r.len) :
    load (icmpPingReply r.d r.len).d 48 (r.len - 48) = load r.d 48 (r.len - 48) := by
  have hcount : ¬((r.len : ℤ) - 48 < 0) := by omega
  have hnat : ((r.len : ℤ) - 48).toNat = r.len - 48 := by omega
  rw [← load_store (p := (getBuffer r.len).d) (i := 48) (l := load r.d 48 (r.len - 48)),
    load_length]
  apply load_congr
  intro j hlo _
  rw [icmpPingReply, finishIcmp_body hlo, Pbuf.memcpy, if_neg hcount, hnat, Pbuf.write_d]

/-- The reset that answers a segment goes to its source. -/
theorem tcpFabricateRst_dst (data : Circular.Mem Uchar) :
    (tcpFabricateRst data).d 24 = data 8 := by
  simp [tcpFabricateRst, putCksum, tcpFields, Pbuf.put16, Pbuf.put32, Circular.store, getAddr,
    load]

/-- A reset to a multicast group leaves the neighbors alone. -/
theorem Daemon.fabricateRst_same (hgroup : r.d 8 = 0xff) : d.Same (d.fabricateRst iface r) := by
  refine ⟨rfl, fun _ => rfl, rfl, rfl, rfl, rfl, ?_⟩
  rw [fabricateRst, Nd.sendPkt, if_pos]
  · rfl
  · rw [tcpFabricateRst_dst]
    exact hgroup

/-! ## Well framed packets -/

/-- A segment to port 0 from a multicast address finds nothing. -/
theorem Recv.find_of_group (hlaw : rb.Lawful) (hvalid : d.Valid rb iface)
    (hzero : get16 r.d 42 = 0) (hgroup : r.d 8 = 0xff)
    (hfind : r.arrival.find d.tcbs.root = some (some t)) : False := by
  have hport : r.arrival.lport.toNat = 0 := r.lport_toNat.trans hzero
  have hform := hvalid.tcbs.formed hlaw
  have hlisten := Table.listening_of_zero hlaw hvalid.tcbs hfind hport
  have hkey := hform.listening t (hform.root.live t (r.arrival.find_mem hfind)) hlisten
  have hneedle := r.arrival.key_of_zero hfind (by omega)
  have hsrc : Addr.zero = r.src :=
    (Table.Arrival.key_needle.mp (hneedle.symm ▸ hkey.symm)).2.2
  have hfirst : some 0 = some (r.d 8) := congrArg (fun a : Addr => a.bytes.head?) hsrc
  rw [hgroup] at hfirst
  cases hfirst

theorem WellFramed.respects_tcp (hlaw : rb.Lawful) (hr : WellFramed r) (hnext : r.d 6 = 6)
    (hvalid : d.Valid rb iface) (hx : d.handleTcp rb iface r now res = some h) :
    Respected r d h := by
  have hend : r.headerEnd = r.doff := if_pos hnext
  have htcp := hr.tcp hnext
  split at htcp
  · next hshort =>
      obtain ⟨found, hfind, hx⟩ := Option.bind_eq_some_iff.mp hx
      cases found with
      | none =>
          obtain rfl := Option.some.inj hx
          exact ⟨fun _ => ⟨d.fabricateRst_same htcp.2, nofun⟩, fun _ => nofun, nofun⟩
      | some t => exact (r.find_of_group hlaw hvalid htcp.1 htcp.2 hfind).elim
  · next hshort =>
      rcases Daemon.handleTcp_taken hx with ⟨htaken, hterm⟩ |
          ⟨hrst, ⟨t, hfind, hconn⟩, htaken, hterm⟩
      · exact .of_untaken hshort htaken hterm
      · rcases htcp with hzero | hreset | ⟨hexact, hroom⟩
        · have hlisten := Table.listening_of_zero hlaw hvalid.tcbs hfind (r.lport_toNat.trans hzero)
          rw [hconn] at hlisten
          cases hlisten
        · rw [hrst] at hreset
          cases hreset
        · refine ⟨fun hbad => absurd hbad hshort, ?_, ?_⟩
          · intro _ x hx
            rw [htaken x hx, ← r.body_eq_iff.mpr hexact, hend]
            rfl
          · intro i hi
            obtain ⟨hpos, rfl⟩ := hterm i hi
            apply hroom
            have hlen : r.segment.data.length = r.len - r.doff := load_length ..
            omega

theorem WellFramed.respects_icmp (hr : WellFramed r) (hnext : r.d 6 = 58) :
    Respected r d (d.handleIcmp iface r) := by
  obtain ⟨hecho, hadv⟩ := hr.icmp hnext
  have hend := Recv.headerEnd_eq (.inr hnext)
  refine ⟨?_, ?_, nofun⟩
  · intro hshort
    have hno : r.d 40 ≠ 128 := fun htype => (hecho htype).1 hshort
    have hno' : r.d 40 ≠ 136 := fun htype => hadv htype hshort
    have hlen := (Recv.tooShort_iff (.inr hnext)).mp hshort
    -- behind the packet the buffer is zero: no option and no target of ours
    have hzero : ∀ i, 48 ≤ i → r.d i = 0 := fun i hi => by
      have hout : r.bytes.length ≤ i := hlen.le.trans hi
      simp [Recv.d, hout]
    have htarget : getAddr r.d 48 ≠ mylladdr := by
      intro heq
      have hfirst : some (r.d 48) = some 0xfe := congrArg (fun a : Addr => a.bytes.head?) heq
      rw [hzero 48 le_rfl] at hfirst
      cases hfirst
    have hoption : ¬(iface.hwaddrLen > 0 ∧ r.d 64 = 1) := by
      rintro ⟨-, hone⟩
      rw [hzero 64 (by decide)] at hone
      cases hone
    have hsame : Wire.handleIcmp iface d.nd r = d.nd := by
      simp [Wire.handleIcmp, hno, hno', htarget, hoption]
    refine ⟨⟨rfl, fun _ => rfl, rfl, rfl, rfl, rfl, congrArg Nd.nlist hsame⟩, ?_⟩
    intro x hx
    rw [Daemon.handleIcmp] at hx
    cases (if_neg hno).symm.trans hx
  · intro hshort x hx
    rw [Recv.tooShort_iff (.inr hnext), not_lt] at hshort
    rw [Daemon.handleIcmp] at hx
    dsimp only at hx
    split at hx
    · next htype =>
        obtain rfl := Option.some.inj hx
        rw [← r.body_eq_iff.mpr (hecho htype).2, hend]
        exact echo_data hshort
    · cases hx

theorem WellFramed.respects_udp (hr : WellFramed r) (hnext : r.d 6 = 17) :
    Respected r d (d.handleUdp r fd) := by
  obtain ⟨hlong, hexact⟩ := hr.udp hnext
  have hend := Recv.headerEnd_eq (.inl hnext)
  refine ⟨fun hshort => absurd hshort hlong, ?_, nofun⟩
  intro _ x hx
  rw [Daemon.handleUdp] at hx
  dsimp only at hx
  split at hx
  · obtain rfl := Option.some.inj hx
    rw [← r.body_eq_iff.mpr hexact, hend]
  · cases hx

theorem WellFramed.respects (hlaw : rb.Lawful) (hr : WellFramed r) : Respects rb r := by
  intro iface d now fd res h hvalid hx
  by_cases htcp : r.d 6 = 6
  · rw [handlePacket_tcp htcp] at hx
    exact hr.respects_tcp hlaw htcp hvalid hx
  by_cases hudp : r.d 6 = 17
  · rw [handlePacket_udp hudp] at hx
    obtain rfl := Option.some.inj hx
    exact hr.respects_udp hudp
  by_cases hicmp : r.d 6 = 58
  · rw [handlePacket_icmp hicmp] at hx
    obtain rfl := Option.some.inj hx
    exact hr.respects_icmp hicmp
  have hlong : ¬r.TooShort := by
    rintro (⟨hbad, -⟩ | ⟨hbad | hbad, -⟩)
    · exact htcp hbad
    · exact hudp hbad
    · exact hicmp hbad
  obtain ⟨htaken, hterm⟩ := handlePacket_other htcp hudp hicmp hx
  exact .of_untaken hlong htaken hterm

/-! ## States in which the others are not respected -/

/-- The daemon before the first packet. -/
def Daemon.start (rb : Table.Rebalance) : Daemon where
  tcbs := Table.tcpListen rb
  conn _ := none
  ev := ⟨[], [], [], 0⟩
  isn := 0
  udp := Udp.init
  nd := Nd.init

theorem Daemon.valid_start (rb : Table.Rebalance) (iface : Iface) :
    (Daemon.start rb).Valid rb iface := by
  refine ⟨.refl, ?_, .refl, [], .refl⟩
  intro t ht hconn
  obtain rfl := List.mem_singleton.mp ht
  cases hconn

/-- With one client, whose connection is `c`. -/
def Daemon.serving (rb : Table.Rebalance) (p : Table.Arrival) (c : Conn) : Daemon where
  tcbs := Table.tcbNew rb (Table.tcpListen rb) (some p.laddr) p.lport.toNat (some p.raddr)
    p.rport.toNat false
  conn _ := some c
  ev := c.ev
  isn := 1
  udp := Udp.init
  nd := Nd.init

theorem Daemon.valid_serving (iface : Iface) (hlaw : rb.Lawful) {p : Table.Arrival}
    (hpos : 0 < p.lport.toNat) (hself : c.self = 1) (hlive : c.live = true)
    (hreach : Reached Always c) : (Daemon.serving rb p c).Valid rb iface := by
  obtain ⟨htable, -, -, honly⟩ := Table.tableReached_first hlaw hpos
  refine ⟨htable, ?_, .refl, [], .refl⟩
  intro t ht hconn
  obtain rfl := honly t ht hconn
  exact ⟨c, rfl, hself, hlive, hreach⟩

/-- A connection whose client starts at the last sequence number, so that no segment is old. -/
def establishedConn (wnd : BitVec 16) : Option Conn :=
  (handleSyn 1 .tcpMapCb 0 ⟨[], [], [], 0⟩
    { seq := 0xffffffff, ack := 0, flags := 0x2, wnd, data := [] } (.connected 5)).bind fun c =>
      exec step Always c [.alwaysEvent 0 ⟨0, 0⟩,
        .packet { seq := 0, ack := 0x10001, flags := 0x10, wnd, data := [] } ⟨0, 0⟩]

/-- The connection is established, no segment is old, and the window is the given one. -/
def Fresh (wnd : BitVec 16) (c : Conn) : Prop :=
  c.self = 1 ∧ c.live = true ∧ c.tcb.state = .established ∧ c.tcb.rcvNxt = 0 ∧
    c.tcb.sndWnd = wnd.setWidth 32

instance (wnd : BitVec 16) (c : Conn) : Decidable (Fresh wnd c) :=
  inferInstanceAs (Decidable (_ ∧ _ ∧ _ ∧ _ ∧ _))

theorem reached_establishedConn (wnd : BitVec 16)
    (h : (establishedConn wnd).any (fun c => decide (Fresh wnd c)) = true) :
    ∃ c, Reached Always c ∧ Fresh wnd c := by
  obtain ⟨c, hc, hfresh⟩ := (Option.any_eq_true _ _).mp h
  obtain ⟨c₀, hstart, hrun⟩ := Option.bind_eq_some_iff.mp hc
  exact ⟨c, ⟨.tcpMapCb, c₀, ⟨1, 0, _, _, _, freshAddr_empty 1 0, hstart⟩, run_of_exec hrun⟩,
    of_decide_eq_true hfresh⟩

/-- Whatever window a segment has, there is such a connection with another. -/
theorem exists_established (wnd : BitVec 16) : ∃ v c, Reached Always c ∧ Fresh v c ∧
    c.tcb.sndWnd ≠ wnd.setWidth 32 := by
  by_cases hone : (1 : BitVec 16).setWidth 32 = wnd.setWidth 32
  · obtain ⟨c, hreach, hfresh⟩ := reached_establishedConn 2 (by decide +kernel)
    refine ⟨2, c, hreach, hfresh, ?_⟩
    rw [hfresh.2.2.2.2, ← hone]
    decide
  · obtain ⟨c, hreach, hfresh⟩ := reached_establishedConn 1 (by decide +kernel)
    refine ⟨1, c, hreach, hfresh, ?_⟩
    rw [hfresh.2.2.2.2]
    exact hone

/-- A block of the table can be put back whatever has become of it. -/
theorem Daemon.put_of_mem (ht : t ∈ SearchTree.inorder d.tcbs.root) (c : Conn) :
    ∃ d', d.put rb t c = some d' ∧ d'.conn t.addr = some c := by
  have hget : Function.update d.conn t.addr (some c) t.addr = some c := Function.update_self ..
  rw [Daemon.put]
  dsimp only
  split
  · exact ⟨_, rfl, hget⟩
  · rw [Table.tcbDelete, Table.rbErase, if_pos ht]
    exact ⟨_, rfl, hget⟩

/-- A segment that finds a connection. -/
theorem Daemon.handleTcp_conn (hfind : r.arrival.find d.tcbs.root = some (some t))
    (hconn : t.listening = false) (hget : d.get t = some c)
    (htcp : Ptrtd.handleTcp (c.receive r.segment) r.segment now = some c')
    (hput : d.put rb t c' = some d') : d.handleTcp rb iface r now res = some
      { daemon := d'
        taken := if reachesRecvData (c.receive r.segment) r.segment now then
          some ⟨r.segment.data, r.segment.data.length⟩ else none
        terminator := if reachesRecvData (c.receive r.segment) r.segment now ∧
          r.segment.data.length > 0 then some r.len else none } := by
  simp only [Daemon.handleTcp, hfind, Option.bind_some, hconn, Bool.false_eq_true, if_false, hget,
    htcp, hput, Option.map_some]

/-- What happens to a segment that finds the one connection. -/
theorem Daemon.serving_handles (iface : Iface) (now : Timeval) (res : ConnectResult)
    (hlaw : rb.Lawful) (hpos : 0 < r.arrival.lport.toNat)
    (hsound : Sound (c.receive r.segment)) : ∃ h c',
      (Daemon.serving rb r.arrival c).handleTcp rb iface r now res = some h ∧
        Ptrtd.handleTcp (c.receive r.segment) r.segment now = some c' ∧
          h.daemon.conn 1 = some c' ∧
            (reachesRecvData (c.receive r.segment) r.segment now = true →
              (∃ x, h.taken = some x ∧ x.data = r.segment.data) ∧
                (r.segment.data.length > 0 → h.terminator = some r.len)) := by
  obtain ⟨-, hmem, hfind, -⟩ := Table.tableReached_first hlaw hpos
  obtain ⟨c', hc'⟩ := Option.isSome_iff_exists.mp (hsound.handleTcp r.segment now)
  obtain ⟨d', hput, hconn⟩ := (Daemon.serving rb r.arrival c).put_of_mem hmem c'
  have hget : (Daemon.serving rb r.arrival c).get (Table.firstNode r.arrival) = some c := rfl
  refine ⟨_, c', Daemon.handleTcp_conn hfind rfl hget hc' hput, hc', hconn, ?_⟩
  intro hreach
  exact ⟨⟨_, if_pos hreach, rfl⟩, fun hdata => if_pos ⟨hreach, hdata⟩⟩

/-! ## Packets that are not well framed -/

theorem Respects.udp (h : Respects rb r) (hnext : r.d 6 = 17) : ¬r.TooShort ∧ r.Exact := by
  have hend := Recv.headerEnd_eq (.inl hnext)
  have hresp := h tapIface (Daemon.start rb) ⟨0, 0⟩ 5 .noSocket _ (Daemon.valid_start rb tapIface)
    (handlePacket_udp hnext)
  have hlong : ¬r.TooShort := by
    intro hshort
    have hcount := (hresp.short hshort).2 _ rfl
    have hlen := (Recv.tooShort_iff (.inl hnext)).mp hshort
    dsimp only at hcount
    omega
  have hdata := hresp.exact hlong _ rfl
  exact ⟨hlong, r.body_eq_iff.mp (hend ▸ hdata)⟩

theorem Respects.icmp (h : Respects rb r) (hnext : r.d 6 = 58) :
    (r.d 40 = 128 → ¬r.TooShort ∧ r.Exact) ∧ (r.d 40 = 136 → ¬r.TooShort) := by
  have hend := Recv.headerEnd_eq (.inr hnext)
  have hresp := h tapIface (Daemon.start rb) ⟨0, 0⟩ 5 .noSocket _ (Daemon.valid_start rb tapIface)
    (handlePacket_icmp hnext)
  constructor
  · intro htype
    have htaken : ((Daemon.start rb).handleIcmp tapIface r).taken =
        some ⟨load (icmpPingReply r.d r.len).d 48 (r.len - 48), r.len - 48⟩ := if_pos htype
    have hlong : ¬r.TooShort := by
      intro hshort
      have hcount := (hresp.short hshort).2 _ htaken
      have hlen := (Recv.tooShort_iff (.inr hnext)).mp hshort
      dsimp only at hcount
      omega
    have hlen := (Recv.tooShort_iff (.inr hnext)).not.mp hlong
    have hdata := hresp.exact hlong _ htaken
    dsimp only at hdata
    rw [echo_data (not_lt.mp hlen)] at hdata
    exact ⟨hlong, r.body_eq_iff.mp (hend ▸ hdata)⟩
  · intro htype hshort
    have hnlist := (hresp.short hshort).1.nlist
    have hnew : (Wire.handleIcmp tapIface Nd.init r).nlist ≠ [] := by
      have hfind : Nd.init.findNeighbor r.src = none := rfl
      rw [Wire.handleIcmp, htype, if_neg (by decide), if_neg (by decide), if_pos rfl]
      split
      · simp [Nd.gotNeighbor, hfind, Nd.addNeighbor]
      · simp [Nd.gotNeighbor, hfind, Nd.addNeighbor]
    exact hnew hnlist

/-- A packet to a host that nobody has asked for makes a neighbor. -/
theorem Nd.sendPkt_init {p : Pbuf} (hhost : p.d 24 ≠ 0xff) :
    (Nd.init.sendPkt tapIface p).nlist ≠ [] := by
  have hlen : tapIface.hwaddrLen > 0 := by decide
  have hfind : Nd.init.findNeighbor (Nd.nextHop p) = none := rfl
  rw [Nd.sendPkt, if_neg hhost, if_pos hlen]
  simp [hfind, Nd.icmpSendNs, Nd.transmit, Nd.addNeighbor, Nd.queuePacket, Nd.update,
    Nd.update.updateFirst]

/-- A segment to port 0 makes a connection or is answered by a reset. -/
theorem Respects.group (hlaw : rb.Lawful) (h : Respects rb r) (hnext : r.d 6 = 6)
    (hshort : r.TooShort)
    (hzero : ¬0 < r.arrival.lport.toNat) : r.d 8 = 0xff := by
  by_contra hhost
  have hvalid := Daemon.valid_start rb tapIface
  have hreset : ((Daemon.start rb).fabricateRst tapIface r).nd.nlist ≠ [] := by
    apply Nd.sendPkt_init
    rw [tcpFabricateRst_dst]
    exact hhost
  have hall : ∀ x, (Daemon.start rb).handleTcp rb tapIface r ⟨0, 0⟩ (.inProgress 5) = some x →
      (Daemon.start rb).Same x.daemon := fun x hx =>
    ((h tapIface _ ⟨0, 0⟩ 5 (.inProgress 5) x hvalid ((handlePacket_tcp hnext).trans hx)).short
      hshort).1
  obtain ⟨found, hfind⟩ : ∃ o, r.arrival.find (Daemon.start rb).tcbs.root = some o := by
    rw [Table.Arrival.find_eq]
    split
    · exact ⟨_, rfl⟩
    · exact ⟨_, if_neg hzero⟩
  rw [Daemon.handleTcp, hfind, Option.bind_some] at hall
  cases found with
  | none => exact hreset (hall _ rfl).nlist
  | some t =>
      dsimp only at hall
      split at hall
      · split at hall
        · next hflags =>
            have hsyn : ∃ c, handleSyn (Daemon.start rb).tcbs.next .tcpMapCb (Daemon.start rb).isn
                (Daemon.start rb).ev r.segment (.inProgress 5) = some c ∧ c.live = true := by
              rw [handleSyn, if_pos hflags]
              exact ⟨_, rfl, rfl⟩
            obtain ⟨c, hc, hlive⟩ := hsyn
            rw [hc, Option.bind_some, Daemon.put] at hall
            dsimp only at hall
            rw [if_pos hlive] at hall
            have htcbs := congrArg Table.Tcbs.next (hall _ rfl).tcbs
            exact Nat.succ_ne_self _ htcbs
        · exact hreset (hall _ rfl).nlist
      · next hconn =>
          obtain rfl := List.mem_singleton.mp
            ((Table.formed_tcpListen hlaw).root.live t (r.arrival.find_mem hfind))
          exact hconn rfl

/-- What a segment to another port does to an established connection that it finds. -/
theorem Respects.established (hlaw : rb.Lawful) (h : Respects rb r) (hnext : r.d 6 = 6)
    (hpos : 0 < r.arrival.lport.toNat) : ∃ d c c' x, d.conn 1 = some c ∧
      c.live = true ∧ c.tcb.sndWnd ≠ r.segment.wnd.setWidth 32 ∧ Respected r d x ∧
        x.daemon.conn 1 = some c' ∧
          (r.segment.isRst = true → c'.live = false) ∧
            (r.segment.isRst = false → c'.tcb.sndWnd = r.segment.wnd.setWidth 32 ∧
              (∃ y, x.taken = some y ∧ y.data = r.segment.data) ∧
                (r.segment.data.length > 0 → x.terminator = some r.len)) := by
  obtain ⟨v, c, hreach, ⟨hself, hlive, hest, hrcv, -⟩, hwnd⟩ := exists_established r.segment.wnd
  have hsound : Sound (c.receive r.segment) :=
    ⟨(WellFormed.of_reached hreach).receive _, (Attached.of_reached hreach).of_eq rfl rfl rfl,
      hlive⟩
  obtain ⟨x, c', hx, hc', hconn, htaken⟩ :=
    Daemon.serving_handles tapIface ⟨0, 0⟩ .noSocket hlaw hpos hsound
  have hvalid := Daemon.valid_serving tapIface hlaw hpos hself hlive hreach
  have hresp := h _ _ ⟨0, 0⟩ 5 .noSocket x hvalid ((handlePacket_tcp hnext).trans hx)
  refine ⟨_, c, c', x, rfl, hlive, hwnd, hresp, hconn, ?_, ?_⟩
  · intro hrst
    rw [Ptrtd.handleTcp, if_pos hrst] at hc'
    obtain ⟨m, ev, b, -, -, rfl⟩ := handleRst_eq hc'
    rfl
  · intro hrst
    have hseq : ¬r.segment.seq < (c.receive r.segment).tcb.rcvNxt := by
      have hzero : (c.receive r.segment).tcb.rcvNxt = 0 := hrcv
      rw [hzero]
      exact BitVec.not_lt_zero
    obtain ⟨hrecv, c'', htcp, hset⟩ := handleTcp_established ⟨0, 0⟩ hsound hest hrst hseq
    obtain rfl := Option.some.inj (htcp.symm.trans hc')
    exact ⟨hset, htaken hrecv⟩

theorem Respects.long_of_port (hlaw : rb.Lawful) (h : Respects rb r) (hnext : r.d 6 = 6)
    (hpos : 0 < r.arrival.lport.toNat) : ¬r.TooShort := by
  intro hshort
  obtain ⟨d, c, c', x, hd, hlive, hwnd, hresp, hconn, hreset, htaken⟩ :=
    h.established hlaw hnext hpos
  have hsame := (hresp.short hshort).1.conn 1
  rw [hconn, hd] at hsame
  obtain ⟨htcb, hlive', -⟩ : c'.tcb = c.tcb ∧ c'.live = c.live ∧ c'.map = c.map := by
    simpa using hsame
  cases hrst : r.segment.isRst with
  | true =>
      rw [hreset hrst, hlive] at hlive'
      cases hlive'
  | false =>
      have hset := (htaken hrst).1
      rw [htcb] at hset
      exact hwnd hset

theorem Respects.exact_of_port (hlaw : rb.Lawful) (h : Respects rb r) (hnext : r.d 6 = 6)
    (hpos : 0 < r.arrival.lport.toNat) (hrst : r.segment.isRst = false) :
    r.Exact ∧ (r.doff < r.len → r.len < r.cap) := by
  obtain ⟨d, c, c', x, -, -, -, hresp, -, -, htaken⟩ := h.established hlaw hnext hpos
  obtain ⟨-, ⟨y, hy, hdata⟩, hterm⟩ := htaken hrst
  constructor
  · have hbody := hresp.exact (h.long_of_port hlaw hnext hpos) y hy
    rw [hdata] at hbody
    apply r.body_eq_iff.mp
    rw [← hbody, Recv.headerEnd, if_pos hnext]
    rfl
  · intro hlt
    have hlen : r.segment.data.length = r.len - r.doff := load_length ..
    exact hresp.inside _ (hterm (by omega))

theorem Respects.wellFramed (hlaw : rb.Lawful) (h : Respects rb r) : WellFramed r := by
  refine ⟨?_, h.udp, h.icmp⟩
  intro hnext
  rw [← r.lport_toNat]
  split
  · next hshort =>
      have hzero : ¬0 < r.arrival.lport.toNat := fun hpos =>
        h.long_of_port hlaw hnext hpos hshort
      exact ⟨by omega, h.group hlaw hnext hshort hzero⟩
  · by_cases hpos : 0 < r.arrival.lport.toNat
    · cases hrst : r.segment.isRst with
      | true => exact .inr (.inl rfl)
      | false => exact .inr (.inr (h.exact_of_port hlaw hnext hpos hrst))
    · exact .inl (by omega)

/-- A packet is handled as its length fields say, in every state, just when it is well framed. -/
theorem respects_iff_wellFramed (hlaw : rb.Lawful) (r : Recv) :
    Respects rb r ↔ WellFramed r :=
  ⟨fun h => h.wellFramed hlaw, fun h => h.respects hlaw⟩

/-- A packet from the router to an address behind the prefix, in a buffer with the given number of
bytes to spare. -/
def packet (next paylen : Uchar) (rest : List Uchar) (spare : ℕ) : Recv where
  bytes := [0x60, 0, 0, 0, 0, paylen, next, 64] ++ otherlladdr.bytes ++ translated.bytes ++ rest
  cap := 40 + rest.length + spare
  fits := by
    simp [otherlladdr, translated]
    omega

/-- One byte for port 80. -/
def oneByte : List Uchar := [4, 0, 0, 80, 0, 0, 0, 0, 0, 0, 0, 0, 0x50, 0x10, 0, 1, 0, 0, 0, 0, 7]

theorem respects_iff_wellFramed_byte : Respects .plain (packet 6 21 oneByte 1) := by
  apply (respects_iff_wellFramed Table.Rebalance.lawful_plain _).mpr
  refine ⟨fun _ => ?_, fun hudp => ?_, fun hicmp => ?_⟩
  · rw [if_neg (by decide +kernel)]
    exact .inr (.inr ⟨by decide +kernel, fun _ => by decide +kernel⟩)
  · exact absurd hudp (by decide +kernel)
  · exact absurd hicmp (by decide +kernel)

/-- A datagram of 47 bytes, an echo request with a byte behind its end, and a segment that fills
the buffer. -/
theorem lengths_disrespected :
    ¬Respects .plain (packet 17 8 [4, 0, 0, 53, 0, 8, 0] 1) ∧
      ¬Respects .plain (packet 58 8 [128, 0, 0, 0, 0, 1, 0, 1, 9] 1) ∧
        ¬Respects .plain (packet 6 21 oneByte 0) := by
  refine ⟨?_, ?_, ?_⟩
  · intro h
    have hframed := h.wellFramed Table.Rebalance.lawful_plain
    exact (hframed.udp (by decide +kernel)).1 (by decide +kernel)
  · intro h
    have hframed := h.wellFramed Table.Rebalance.lawful_plain
    have hexact := ((hframed.icmp (by decide +kernel)).1 (by decide +kernel)).2
    exact absurd hexact (by decide +kernel)
  · intro h
    have hframed := h.wellFramed Table.Rebalance.lawful_plain
    have htcp := hframed.tcp (by decide +kernel)
    rw [if_neg (by decide +kernel)] at htcp
    rcases htcp with hzero | hrst | ⟨-, hroom⟩
    · exact absurd hzero (by decide +kernel)
    · exact absurd hrst (by decide +kernel)
    · exact absurd (hroom (by decide +kernel)) (by decide +kernel)

end Ptrtd.Wire
