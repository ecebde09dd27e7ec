import Ptrtd.Verification.Packet.Builders

/-! # The datagrams of `udp_send`

What `udp_send` writes can be read back. The checksum is the complement of the sum, so that it is
zero when the sum is all ones. -/

namespace Ptrtd.Wire

open Circular (Mem store load)
open OnesComplement (Reduces)
open Table (Addr)

variable {p : Pbuf} {m : Mem Uchar} {i n j : ℕ} {data : List Uchar} {laddr raddr : Addr}
  {lport rport : ℕ}

/-! ## Reading a datagram back -/

theorem getAddr_store (a : Addr) : getAddr (store m i a.bytes) i = a := by
  have hall := load_store (p := m) (i := i) (l := a.bytes)
  rw [addr_length] at hall
  simp only [getAddr, hall]

theorem getAddr_store_of_disjoint {l : List Uchar} (h : i + 16 ≤ j ∨ j + l.length ≤ i) :
    getAddr (store m j l) i = getAddr m i := by
  simp only [getAddr, load_store_of_disjoint h]

theorem get16_store_of_disjoint {l : List Uchar} (h : i + 2 ≤ j ∨ j + l.length ≤ i) :
    get16 (store m j l) i = get16 m i :=
  get16_congr (store_apart (by omega)) (store_apart (by omega))

theorem udpFields_src : getAddr (udpFields p n laddr lport raddr rport).d 8 = laddr := by
  simp only [udpFields, Pbuf.put16, Pbuf.write_d]
  rw [getAddr_store_of_disjoint (by simp), getAddr_store_of_disjoint (by simp),
    getAddr_store_of_disjoint (by simp), getAddr_store_of_disjoint (by simp), getAddr_store]

theorem udpFields_dst : getAddr (udpFields p n laddr lport raddr rport).d 24 = raddr := by
  simp only [udpFields, Pbuf.put16, Pbuf.write_d]
  rw [getAddr_store_of_disjoint (by simp), getAddr_store_of_disjoint (by simp),
    getAddr_store_of_disjoint (by simp), getAddr_store]

theorem udpFields_sport :
    get16 (udpFields p n laddr lport raddr rport).d 40 = lport % 65536 := by
  simp only [udpFields, Pbuf.put16, Pbuf.write_d]
  rw [get16_store_of_disjoint (by simp), get16_store_of_disjoint (by simp), get16_bytes16]
  omega

theorem udpFields_dport :
    get16 (udpFields p n laddr lport raddr rport).d 42 = rport % 65536 := by
  simp only [udpFields, Pbuf.put16, Pbuf.write_d]
  rw [get16_store_of_disjoint (by simp), get16_bytes16]
  omega

theorem udpFields_length :
    get16 (udpFields p n laddr lport raddr rport).d 44 = (n + 8) % 65536 := by
  simp only [udpFields, Pbuf.put16, Pbuf.write_d]
  rw [get16_bytes16]
  omega

theorem udpFields_load (k : ℕ) :
    load (udpFields p n laddr lport raddr rport).d 48 k = load p.d 48 k := by
  simp only [udpFields, Pbuf.put16, Pbuf.clear, Pbuf.write_d]
  rw [load_store_of_disjoint, load_store_of_disjoint, load_store_of_disjoint,
    load_store_of_disjoint, load_store_of_disjoint, load_store_of_disjoint,
    load_store_of_disjoint, load_store_of_disjoint, load_store_of_disjoint,
    load_store_of_disjoint]
  all_goals simp

/-- The payload of a received or emitted datagram: what follows the two headers. -/
def Pbuf.payload (p : Pbuf) : List Uchar := load p.d 48 (p.dlen - 48).toNat

section

variable (data laddr lport raddr rport)

theorem udpSend_src : getAddr (udpSend data laddr lport raddr rport).d 8 = laddr := by
  rw [udpSend_eq]
  exact (getAddr_store_of_disjoint (by simp)).trans udpFields_src

theorem udpSend_dst : getAddr (udpSend data laddr lport raddr rport).d 24 = raddr := by
  rw [udpSend_eq]
  exact (getAddr_store_of_disjoint (by simp)).trans udpFields_dst

theorem udpSend_sport : get16 (udpSend data laddr lport raddr rport).d 40 = lport % 65536 := by
  rw [udpSend_eq]
  exact (get16_store_of_disjoint (by simp)).trans udpFields_sport

theorem udpSend_dport : get16 (udpSend data laddr lport raddr rport).d 42 = rport % 65536 := by
  rw [udpSend_eq]
  exact (get16_store_of_disjoint (by simp)).trans udpFields_dport

/-- A payload of more than 1232 bytes is cut off. -/
theorem udpSend_payload : (udpSend data laddr lport raddr rport).payload = data.take 1232 := by
  have hlen : ((min data.length 1232 : ℕ) + 48 - 48 : ℤ).toNat = (data.take 1232).length := by
    rw [List.length_take]
    omega
  rw [Pbuf.payload, udpSend_eq]
  simp only [hlen, putCksum, Pbuf.put16, Pbuf.write_d]
  rw [load_store_of_disjoint (by simp), udpFields_load, Pbuf.write_d, load_store]

end

/-! ## When the checksum is zero -/

/-- The words of a byte string, summed up. -/
def wordSum (l : List Uchar) : ℕ := (OnesComplement.pairs 256 (l.map (·.toNat))).sum

/-- What the words of the pseudo-header, of the UDP header and of the payload add up to. -/
def udpTotal (data : List Uchar) (laddr : Addr) (lport : ℕ) (raddr : Addr) (rport : ℕ) : ℕ :=
  wordSum laddr.bytes + wordSum raddr.bytes + (data.length + 8) + 17 +
    (lport % 65536 + rport % 65536 + (data.length + 8)) + wordSum data

theorem byteSum_two (hi : i % 2 = 0) : byteSum m i 2 = get16 m i := by
  have hodd : (i + 1) % 2 = 1 := by omega
  have heven : ¬i % 2 = 1 := by omega
  simp [byteSum, weight, get16, hodd, heven]

theorem addBytes_udpFields (hdata : data.length ≤ 1232) :
    addBytes (udpFields ((getBuffer 1280).write 48 data) data.length laddr lport raddr rport).d
      (data.length + 48) = udpTotal data laddr lport raddr rport := by
  obtain ⟨q, hq⟩ : ∃ q, q = udpFields ((getBuffer 1280).write 48 data) data.length laddr lport
    raddr rport := ⟨_, rfl⟩
  have hsplit : data.length + 48 - 8 = 16 + 16 + 2 + 2 + 2 + 2 + data.length := by omega
  have hbytes : byteSum q.d 8 (data.length + 48 - 8) = byteSum q.d 8 16 + byteSum q.d 24 16 +
      byteSum q.d 40 2 + byteSum q.d 42 2 + byteSum q.d 44 2 + byteSum q.d 46 2 +
      byteSum q.d 48 data.length := by
    rw [hsplit, byteSum_append, byteSum_append, byteSum_append, byteSum_append, byteSum_append,
      byteSum_append]
  have hsrc : load q.d 8 16 = laddr.bytes := by
    rw [hq]
    exact congrArg Addr.bytes udpFields_src
  have hdst : load q.d 24 16 = raddr.bytes := by
    rw [hq]
    exact congrArg Addr.bytes udpFields_dst
  have hload : load q.d 48 data.length = data := by
    rw [hq, udpFields_load, Pbuf.write_d, load_store]
  have hzero : get16 q.d 46 = 0 := by
    rw [hq, get16, udpFields_zero (.inl rfl), udpFields_zero (.inr rfl)]
    rfl
  have hnext : q.d 6 = 17 := by
    rw [hq, udpFields_next]
  have hpay : get16 q.d 4 = data.length + 8 := by
    rw [hq, udpFields_paylen]
    omega
  have hsport : get16 q.d 40 = lport % 65536 := by
    rw [hq, udpFields_sport]
  have hdport : get16 q.d 42 = rport % 65536 := by
    rw [hq, udpFields_dport]
  have hlength : get16 q.d 44 = data.length + 8 := by
    rw [hq, udpFields_length]
    omega
  rw [← hq, addBytes_eq, hbytes, byteSum_words q.d (by decide),
    byteSum_words q.d (by decide), hsrc, hdst,
    byteSum_two (by decide), byteSum_two (by decide), byteSum_two (by decide),
    byteSum_two (by decide), byteSum_words q.d (by decide), hload, hzero, hnext, hpay, hsport,
    hdport, hlength]
  simp only [udpTotal, wordSum, UInt8.toNat_ofNat]
  omega

/-- The checksum field is zero just when the sum is a multiple of `0xffff`: the source does not
replace it. -/
theorem cksum_ne_zero_iff (hdata : data.length ≤ 1232) :
    get16 (udpSend data laddr lport raddr rport).d 46 ≠ 0 ↔
      udpTotal data laddr lport raddr rport % 65535 ≠ 0 := by
  have hsum := makeCksum_reduces
    (udpFields ((getBuffer 1280).write 48 data) data.length laddr lport raddr rport).d
    (data.length + 48)
  have hlt := hsum.lt
  rw [addBytes_udpFields hdata] at hsum
  have hpos : udpTotal data laddr lport raddr rport ≠ 0 := by
    rw [udpTotal]
    omega
  have hones := hsum.eq_ones_iff hpos
  rw [udpSend_d hdata, putCksum, Pbuf.put16, Pbuf.write_d, get16_bytes16, complement_emod hlt]
  omega

/-- A datagram whose words add up to all ones. -/
theorem cksum_zero_sent :
    get16 (udpSend [60, 97] ⟨[0xfe, 0xc0, 0, 0, 0, 0, 0xff, 0xff, 0, 0, 0, 0, 192, 0, 2, 1], rfl⟩ 53
      otherlladdr 1024).d 46 = 0 := by
  decide +kernel

theorem cksum_ne_zero_iff_datagram :
    get16 (udpSend [1, 2, 3] mylladdr 53 otherlladdr 1024).d 46 ≠ 0 :=
  (cksum_ne_zero_iff (by decide)).mpr (by decide +kernel)

end Ptrtd.Wire
