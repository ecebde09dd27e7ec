import Ptrtd.Verification.Buffer.Correctness
import Ptrtd.Verification.Packet.Builders
import Mathlib.Tactic.Tauto

/-! # Builders and their buffers

Each builder asks `get_buffer` for a number of bytes of its own. All but one of them write below
that number; `icmp_send_error` asks for room for the quoted bytes and forgets the headers. -/

namespace Ptrtd.Wire

open Circular (Mem store load load_length)
open Table (Addr)

/-- The builders with what their callers pass. -/
inductive Builder
  | tcpFabricateRst (r : Recv)
  | tcpSendRst (e : Endpoints) (t : Tcb)
  | tcpSendSyn (e : Endpoints) (t : Tcb)
  | tcpSendAndAck (e : Endpoints) (t : Tcb)
  | udpSend (data : List Uchar) (laddr : Addr) (lport : ℕ) (raddr : Addr) (rport : ℕ)
  | icmpSendError (r : Recv)
  | icmpSendPingReply (r : Recv)
  | icmpSendNs (iface : Iface) (dest : Addr)
  | icmpSendNa (iface : Iface) (dest : Option Addr)

namespace Builder

/-- The packet, if building it is defined. -/
def build : Builder → Option Pbuf
  | .tcpFabricateRst r => some (Wire.tcpFabricateRst r.d)
  | .tcpSendRst e t => some (Wire.tcpSendRst e t)
  | .tcpSendSyn e t => some (Wire.tcpSendSyn e t)
  | .tcpSendAndAck e t => Wire.tcpSendAndAck e t
  | .udpSend data laddr lport raddr rport => some (Wire.udpSend data laddr lport raddr rport)
  | .icmpSendError r => some (icmpError r.d r.len)
  | .icmpSendPingReply r => some (icmpPingReply r.d r.len)
  | .icmpSendNs iface dest => some (icmpNs iface dest)
  | .icmpSendNa iface dest => some (icmpNa iface dest)

/-- What the callers can pass: a received packet has its two headers, and a block has the `mss`
of `handle_tcp`. -/
def Callable : Builder → Prop
  | .tcpFabricateRst r | .icmpSendError r | .icmpSendPingReply r => 48 ≤ r.len
  | .tcpSendRst _ t | .tcpSendSyn _ t | .tcpSendAndAck _ t => t.mss = 1220
  | _ => True

/-- The memory that the builder reads is there: `rb_read` finds its bytes in the block. -/
def Readable : Builder → Prop
  | .tcpSendAndAck _ t => t.outbuf.Ok
  | _ => True

/-- Whether the packet is an ICMP error. -/
def isError : Builder → Bool
  | .icmpSendError _ => true
  | _ => false

end Builder

/-- Every write was below the size asked for, and so is the end of the packet. -/
structure Pbuf.Inside (p : Pbuf) : Prop where
  ok : p.ok = true
  dlen_le : p.dlen ≤ p.size

/-! ## Headers -/

variable {p : Pbuf} {src dst : Addr} {sport dport paylen : ℤ} {seq ack : Uint} {off flags : Uchar}

theorem tcpFields_ok (h : p.ok = true) (hsize : 60 ≤ p.size) :
    (tcpFields p paylen src dst sport dport seq ack off flags).ok = true := by
  simp [tcpFields, Pbuf.clear, Pbuf.put16, Pbuf.put32, h]
  omega

theorem tcpFields_size :
    (tcpFields p paylen src dst sport dport seq ack off flags).size = p.size := by
  simp [tcpFields, Pbuf.clear, Pbuf.put16, Pbuf.put32]

theorem putCksum_size (p : Pbuf) (i len : ℕ) : (putCksum p i len).size = p.size := by
  rw [putCksum, Pbuf.put16, Pbuf.write_size]

theorem makeTcpHdr_ok (e : Endpoints) (t : Tcb) (dlen : ℕ) (flags : Uchar) (optwords : ℕ)
    (h : p.ok = true) (hsize : 60 ≤ p.size) :
    (makeTcpHdr e t p dlen flags optwords).1.ok = true ∧
      (makeTcpHdr e t p dlen flags optwords).1.size = p.size := by
  simp [makeTcpHdr, putCksum, Pbuf.put16, tcpFields_ok h hsize, tcpFields_size]
  omega

theorem makeTcpHdr_snd (e : Endpoints) (t : Tcb) (dlen optwords : ℕ) :
    (makeTcpHdr e t p dlen flags optwords).2 = 4 * optwords + dlen + 60 := rfl

theorem icmpFields_ok {len : ℤ} {type code : Uchar} {value : Uint} (h : p.ok = true)
    (hsize : 48 ≤ p.size) : (icmpFields p len src dst type code value).ok = true := by
  simp [icmpFields, Pbuf.clear, Pbuf.put16, Pbuf.put32, h]
  omega

theorem icmpFields_size {len : ℤ} {type code : Uchar} {value : Uint} :
    (icmpFields p len src dst type code value).size = p.size := by
  simp [icmpFields, Pbuf.clear, Pbuf.put16, Pbuf.put32]

theorem finishIcmp_inside {len : ℤ} {type code : Uchar} {value : Uint} (h : p.ok = true)
    (hpos : 0 ≤ len) (hsize : len + 48 ≤ p.size) :
    (finishIcmp p len src dst type code value).Inside := by
  constructor
  · simp [finishIcmp, makeIcmpHdr, putCksumTwice, icmpFields_ok h (by omega), icmpFields_size]
    omega
  · simpa [finishIcmp, makeIcmpHdr, putCksumTwice, icmpFields_size] using hsize

theorem finishIcmp_ok {len : ℤ} {type code : Uchar} {value : Uint}
    (h : (finishIcmp p len src dst type code value).ok = true) : p.ok = true := by
  simp [finishIcmp, makeIcmpHdr, putCksumTwice, icmpFields, Pbuf.clear, Pbuf.put16,
    Pbuf.put32] at h
  tauto

theorem udpFields_ok {n lport rport : ℕ} {laddr raddr : Addr} (h : p.ok = true)
    (hsize : 48 ≤ p.size) : (udpFields p n laddr lport raddr rport).ok = true := by
  simp [udpFields, Pbuf.clear, Pbuf.put16, h]
  omega

theorem udpFields_size {n lport rport : ℕ} {laddr raddr : Addr} :
    (udpFields p n laddr lport raddr rport).size = p.size := by
  simp [udpFields, Pbuf.clear, Pbuf.put16]

/-! ## The builders -/

theorem tcpFabricateRst_inside (data : Mem Uchar) : (tcpFabricateRst data).Inside := by
  rw [tcpFabricateRst]
  constructor
  · simp only [putCksum, Pbuf.put16, Pbuf.write_ok, tcpFields_size, bytes16_length]
    exact ⟨tcpFields_ok rfl (by decide), by decide⟩
  · simp only [putCksum_size, tcpFields_size]
    exact le_rfl

theorem tcpSendRst_inside (e : Endpoints) (t : Tcb) : (tcpSendRst e t).Inside := by
  have hclear : ((getBuffer 60).clear 60).ok = true := by
    simp [Pbuf.clear, getBuffer]
  obtain ⟨hok, hsize⟩ := makeTcpHdr_ok e t 0 0x14 0 hclear le_rfl
  rw [tcpSendRst]
  refine ⟨hok, ?_⟩
  simp only [hsize]
  exact le_rfl

theorem tcpSendSyn_inside (e : Endpoints) (t : Tcb) : (tcpSendSyn e t).Inside := by
  have hopt : ((((getBuffer 68).write 60 [2]).write 61 [4]).put16 62 1216).ok = true := by
    simp [Pbuf.put16, getBuffer]
  obtain ⟨hok, hsize⟩ := makeTcpHdr_ok e t 0 0x12 1 hopt (by decide)
  rw [tcpSendSyn]
  refine ⟨hok, ?_⟩
  simp only [hsize, makeTcpHdr_snd]
  simp [Pbuf.put16, getBuffer]

theorem udpSend_inside (data : List Uchar) (laddr : Addr) (lport : ℕ) (raddr : Addr)
    (rport : ℕ) : (udpSend data laddr lport raddr rport).Inside := by
  have hdata : ((getBuffer 1280).write 48 (data.take 1232)).ok = true := by
    simp [getBuffer]
    omega
  have hfields : (udpFields ((getBuffer 1280).write 48 (data.take 1232)) (min data.length 1232)
      laddr lport raddr rport).ok = true := udpFields_ok hdata (by simp [getBuffer])
  rw [udpSend_eq]
  constructor
  · simp only [putCksum, Pbuf.put16, Pbuf.write_ok, udpFields_size]
    refine ⟨hfields, ?_⟩
    simp [getBuffer]
  · simp only [putCksum, Pbuf.put16, Pbuf.write_size, udpFields_size, getBuffer]
    omega

/-- The length that `tcp_send_and_ack` asks `rb_read` for. -/
theorem sendData_count {t : Tcb} (hwnd : 0 < windowSize t) (havail : 0 < rbAvail t.outbuf t.sndNxt)
    {n : ℤ} (hn : (if (if rbAvail t.outbuf t.sndNxt > t.mss.toNat then (t.mss.toNat : ℤ)
      else rbAvail t.outbuf t.sndNxt) > windowSize t then windowSize t
      else if rbAvail t.outbuf t.sndNxt > t.mss.toNat then (t.mss.toNat : ℤ)
      else rbAvail t.outbuf t.sndNxt) = n) : 0 ≤ n ∧ n ≤ t.mss.toNat := by
  split_ifs at hn <;> omega

/-- Data for a segment is at most `mss` bytes. -/
theorem sendData_length_le {t : Tcb} {d : List Uchar} (h : sendData t = some d) :
    d.length ≤ t.mss.toNat := by
  rw [sendData] at h
  dsimp only at h
  split at h
  · next hpos =>
      have hcount := sendData_count hpos.1 hpos.2 rfl
      have hlen := Buffer.rbRead_length_le hcount.1 h
      omega
  · cases h
    exact Nat.zero_le _

/-- Reading the data for a segment is defined. -/
theorem sendData_defined {t : Tcb} (hok : t.outbuf.Ok) : (sendData t).isSome = true := by
  rw [sendData]
  dsimp only
  split
  · next hpos =>
      generalize hlen : (if (if rbAvail t.outbuf t.sndNxt > t.mss.toNat then (t.mss.toNat : ℤ)
        else rbAvail t.outbuf t.sndNxt) > windowSize t then windowSize t
        else if rbAvail t.outbuf t.sndNxt > t.mss.toNat then (t.mss.toNat : ℤ)
        else rbAvail t.outbuf t.sndNxt) = len
      have hbounds := sendData_count hpos.1 hpos.2 hlen
      obtain ⟨m, rfl⟩ := Int.eq_ofNat_of_zero_le hbounds.1
      have hback : (t.outbuf.wSeq - t.sndNxt).toInt ≤ t.outbuf.used ∧
          0 < (t.outbuf.wSeq - t.sndNxt).toInt := by
        have havail := hpos.2
        simp only [rbAvail] at havail
        split at havail <;> omega
      obtain ⟨back, hbackn⟩ := Int.eq_ofNat_of_zero_le hback.2.le
      have hread : rbRead t.outbuf t.sndNxt m =
          some ((t.outbuf.content.drop (t.outbuf.used - back)).take m) :=
        Buffer.rbRead_spec hok hbackn (by omega)
      exact Option.isSome_of_eq_some hread
  · rfl

theorem tcpSendAndAck_inside {e : Endpoints} {t : Tcb} (hmss : t.mss = 1220)
    (h : tcpSendAndAck e t = some p) : p.Inside := by
  rw [tcpSendAndAck, Option.map_eq_some_iff] at h
  obtain ⟨data, hdata, rfl⟩ := h
  have hlen : data.length ≤ 1220 := by
    have hle := sendData_length_le hdata
    rwa [hmss] at hle
  have hwrite : ((getBuffer 1500).write 60 data).ok = true := by
    simp [getBuffer]
    omega
  dsimp only
  split
  · exact ⟨hwrite, Int.zero_le_ofNat 1500⟩
  · obtain ⟨hok, hsize⟩ := makeTcpHdr_ok e t data.length (UInt8.ofNat
      (sendFlags (pushDue t data.length) (finDue t data.length)).toNat) 0 hwrite
      (by simp [getBuffer])
    refine ⟨hok, ?_⟩
    simp only [hsize, makeTcpHdr_snd]
    simp [getBuffer]
    omega

/-- The quoted bytes run past the end of the buffer by the length of the headers. -/
theorem icmpError_not_ok {sp : Mem Uchar} {len : ℕ} (hlen : 0 < len) :
    ¬(icmpError sp len).ok = true := by
  intro hok
  have hcopy := finishIcmp_ok hok
  have hcount : ¬(((if len > 1232 then 1232 else len : ℕ) : ℤ) < 0) := by omega
  rw [Pbuf.memcpy, if_neg hcount, Pbuf.write_ok] at hcopy
  have hfit := hcopy.2
  simp only [load_length, getBuffer] at hfit
  split at hfit <;> omega

theorem icmpPingReply_inside {sp : Mem Uchar} {len : ℕ} (hlen : 48 ≤ len) :
    (icmpPingReply sp len).Inside := by
  have hcount : ¬((len : ℤ) - 48 < 0) := by omega
  apply finishIcmp_inside
  · simp [Pbuf.memcpy, hcount, getBuffer]
    omega
  · omega
  · simp [Pbuf.memcpy, hcount, getBuffer]

theorem putHwaddr_spec (iface : Iface) (type : Uchar) (h : p.ok = true) (hsize : p.size = 128) :
    (putHwaddr iface p 64 type).1.ok = true ∧ (putHwaddr iface p 64 type).1.size = 128 ∧
      64 ≤ (putHwaddr iface p 64 type).2 ∧ (putHwaddr iface p 64 type).2 ≤ 128 := by
  have hle := iface.hwaddr_le
  rw [putHwaddr]
  split
  · simp [h, hsize, Iface.hwaddrLen]
    omega
  · simp [h, hsize]

theorem icmpNs_inside (iface : Iface) (dest : Addr) : (icmpNs iface dest).Inside := by
  have hdest : ((getBuffer 128).write 48 dest.bytes).ok = true := by
    simp [getBuffer]
  obtain ⟨hok, hsize, hlo, hhi⟩ := putHwaddr_spec iface 1 hdest rfl
  simp only [icmpNs]
  apply finishIcmp_inside hok
  · omega
  · rw [hsize]
    omega

theorem icmpNa_inside (iface : Iface) (dest : Option Addr) : (icmpNa iface dest).Inside := by
  have hdest : ((getBuffer 128).write 48 mylladdr.bytes).ok = true := by
    simp [getBuffer]
  obtain ⟨hok, hsize, hlo, hhi⟩ := putHwaddr_spec iface 2 hdest rfl
  simp only [icmpNa]
  apply finishIcmp_inside hok
  · omega
  · rw [hsize]
    omega

/-- A builder stays inside its buffer unless it builds an ICMP error, and it builds a packet
unless the bytes to send are not in `outbuf`. -/
theorem inside_iff (b : Builder) (h : b.Callable) :
    ((∀ p, b.build = some p → p.Inside) ↔ b.isError = false) ∧
      (b.Readable → b.build.isSome = true) := by
  cases b with
  | tcpFabricateRst r => simp [Builder.build, Builder.isError, tcpFabricateRst_inside]
  | tcpSendRst e t => simp [Builder.build, Builder.isError, tcpSendRst_inside]
  | tcpSendSyn e t => simp [Builder.build, Builder.isError, tcpSendSyn_inside]
  | tcpSendAndAck e t =>
      refine ⟨⟨fun _ => rfl, fun _ p hp => tcpSendAndAck_inside h hp⟩, fun hok => ?_⟩
      rw [Builder.build, tcpSendAndAck, Option.isSome_map]
      exact sendData_defined hok
  | udpSend data laddr lport raddr rport =>
      simp [Builder.build, Builder.isError, udpSend_inside]
  | icmpSendError r =>
      have hpos : 0 < r.len := Nat.lt_of_lt_of_le (by decide) h
      have hbad : ¬(icmpError r.d r.len).Inside := fun hinside =>
        icmpError_not_ok hpos hinside.ok
      simpa [Builder.build, Builder.isError] using hbad
  | icmpSendPingReply r => simpa [Builder.build, Builder.isError] using icmpPingReply_inside h
  | icmpSendNs iface dest => simp [Builder.build, Builder.isError, icmpNs_inside]
  | icmpSendNa iface dest => simp [Builder.build, Builder.isError, icmpNa_inside]

/-- A packet of 49 bytes. -/
def oddPacket (next : Uchar) : Recv where
  bytes := [0x60, 0, 0, 0, 0, 9, next] ++ List.replicate 42 1
  cap := 1276
  fits := by simp

theorem inside_iff_ping : (icmpPingReply (oddPacket 58).d 49).Inside :=
  (inside_iff (.icmpSendPingReply (oddPacket 58))
    (by decide : 48 ≤ (oddPacket 58).len)).1.mpr rfl _ rfl

/-- The answer to a packet of 49 bytes with an unknown next header is 97 bytes long, in a buffer
of 49. -/
theorem error_overflows : (Builder.icmpSendError (oddPacket 59)).Callable ∧
    ∃ p, (Builder.icmpSendError (oddPacket 59)).build = some p ∧ p.size = 49 ∧ p.dlen = 97 ∧
      p.ok = false :=
  ⟨(by decide : 48 ≤ (oddPacket 59).len), icmpError (oddPacket 59).d 49, rfl, by decide +kernel⟩

end Ptrtd.Wire
