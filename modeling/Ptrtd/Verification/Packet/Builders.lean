import Ptrtd.Model.Udp
import Ptrtd.Verification.Packet.Checksum

/-! # The packets that are emitted

Every builder leaves the checksum field zero until the rest of the packet is in place, so that
all of its packets verify. -/

namespace Ptrtd.Wire

open Circular (Mem store load)
open OnesComplement (Reduces)
open Table (Addr)

@[simp] theorem bytes16_length (v : ℤ) : (bytes16 v).length = 2 := rfl

@[simp] theorem bytes32_length (v : ℤ) : (bytes32 v).length = 4 := rfl

@[simp] theorem addr_length (a : Addr) : a.bytes.length = 16 := a.length_eq

namespace Pbuf

variable {p : Pbuf} {i j : ℕ} {l : List Uchar}

-- These are not proved by `rfl`: as rewriting steps without a proof they would leave it to the
-- kernel to compare whole buffers.
@[simp] theorem write_d : (p.write i l).d = store p.d i l := by rw [write]

@[simp] theorem write_size : (p.write i l).size = p.size := by rw [write]

@[simp] theorem write_ok : (p.write i l).ok = true ↔ p.ok = true ∧ i + l.length ≤ p.size := by
  simp [write]

end Pbuf

variable {p : Mem Uchar} {i j len : ℕ}

/-- Stores elsewhere leave a byte alone. -/
theorem store_apart {l : List Uchar} (h : j < i ∨ i + l.length ≤ j) : store p i l j = p j := by
  rcases h with h | h
  · exact store_of_lt l h
  · exact store_of_le h

theorem addBytes_ne_zero (h : p 6 ≠ 0) : addBytes p len ≠ 0 := by
  intro hzero
  apply h
  rw [addBytes_eq] at hzero
  apply UInt8.toNat_inj.mp
  simp only [UInt8.toNat_zero]
  omega

theorem get16_congr {q : Mem Uchar} (h₀ : p i = q i) (h₁ : p (i + 1) = q (i + 1)) :
    get16 p i = get16 q i := by
  rw [get16, get16, h₀, h₁]

/-! ## Checksums -/

/-- A packet with the right checksum, whose length field says what follows the IPv6 header. -/
structure Verifies (p : Mem Uchar) (len : ℕ) : Prop where
  cksum : makeCksum p len = 0xffff
  paylen : get16 p 4 = len - 40

theorem putCksum_verifies {p : Pbuf} (hi : 8 ≤ i) (heven : i % 2 = 0) (hlen : i + 2 ≤ len)
    (h₀ : p.d i = 0) (h₁ : p.d (i + 1) = 0) (hnext : p.d 6 ≠ 0) (hpay : get16 p.d 4 = len - 40) :
    Verifies (putCksum p i len).d len := by
  refine ⟨makeCksum_complement hi heven hlen h₀ h₁ (addBytes_ne_zero hnext), ?_⟩
  rw [← hpay]
  exact get16_congr (store_of_lt _ (by omega)) (store_of_lt _ (by omega))

/-! ## TCP -/

variable {src dst : Addr} {sport dport paylen : ℤ} {seq ack : Uint} {off flags : Uchar}

theorem tcpFields_zero {p : Pbuf} (hlo : 54 ≤ j) (hhi : j < 60) :
    (tcpFields p paylen src dst sport dport seq ack off flags).d j = 0 := by
  have hclear : (p.clear 60).d j = 0 := by
    have hat := store_at (p := p.d) (i := 0) (k := j) (l := List.replicate 60 (0 : Uchar))
      (by simpa using hhi)
    rw [Nat.zero_add] at hat
    rw [Pbuf.clear, Pbuf.write_d, hat, List.getElem_replicate]
  rw [← hclear]
  simp only [tcpFields, Pbuf.put16, Pbuf.put32, Pbuf.write_d]
  rw [store_apart, store_apart, store_apart, store_apart, store_apart, store_apart, store_apart,
    store_apart, store_apart, store_apart, store_apart, store_apart]
  all_goals
    simp
    omega

theorem tcpFields_next {p : Pbuf} :
    (tcpFields p paylen src dst sport dport seq ack off flags).d 6 = 6 := by
  simp [tcpFields, Pbuf.put16, Pbuf.put32, store]

theorem tcpFields_paylen {p : Pbuf} :
    get16 (tcpFields p paylen src dst sport dport seq ack off flags).d 4 =
      (paylen % 65536).toNat := by
  have hput := get16_bytes16 ((p.clear 60).write 0 [0x60]).d 4 paylen
  rw [← hput]
  apply get16_congr
  · simp [tcpFields, Pbuf.put16, Pbuf.put32, store]
  · simp [tcpFields, Pbuf.put16, Pbuf.put32, store]

theorem makeTcpHdr_verifies (e : Endpoints) (t : Tcb) (buf : Pbuf) (dlen : ℕ) (flags : Uchar)
    (optwords : ℕ) (hlen : (makeTcpHdr e t buf dlen flags optwords).2 ≤ 1500) :
    Verifies (makeTcpHdr e t buf dlen flags optwords).1.d
      (makeTcpHdr e t buf dlen flags optwords).2 := by
  simp only [makeTcpHdr] at hlen ⊢
  apply putCksum_verifies (by decide) (by decide) (by omega)
  · rw [Pbuf.put16, Pbuf.write_d, store_apart (by simp), tcpFields_zero (by decide) (by decide)]
  · rw [Pbuf.put16, Pbuf.write_d, store_apart (by simp), tcpFields_zero (by decide) (by decide)]
  · rw [Pbuf.put16, Pbuf.write_d, store_apart (by simp), tcpFields_next]
    decide
  · rw [Pbuf.put16, Pbuf.write_d, get16_congr (store_apart (by simp)) (store_apart (by simp)),
      tcpFields_paylen]
    omega

theorem tcpFabricateRst_verifies (data : Mem Uchar) : Verifies (tcpFabricateRst data).d 60 := by
  simp only [tcpFabricateRst]
  apply putCksum_verifies (by decide) (by decide) (by decide)
  · exact tcpFields_zero (by decide) (by decide)
  · exact tcpFields_zero (by decide) (by decide)
  · rw [tcpFields_next]
    decide
  · rw [tcpFields_paylen]
    decide

/-! ## UDP -/

section

variable {p : Pbuf} {n : ℕ} {laddr raddr : Addr} {lport rport : ℕ}

theorem udpFields_zero (hj : j = 46 ∨ j = 47) :
    (udpFields p n laddr lport raddr rport).d j = 0 := by
  rcases hj with rfl | rfl
  · simp [udpFields, Pbuf.put16, Pbuf.clear, store]
  · simp [udpFields, Pbuf.put16, Pbuf.clear, store]

theorem udpFields_next : (udpFields p n laddr lport raddr rport).d 6 = 17 := by
  simp [udpFields, Pbuf.put16, store]

theorem udpFields_paylen :
    get16 (udpFields p n laddr lport raddr rport).d 4 = (n + 8) % 65536 := by
  have hput := get16_bytes16 ((p.clear 48).write 0 [0x60]).d 4 (n + 8)
  have hmod : ((n + 8 : ℤ) % 65536).toNat = (n + 8) % 65536 := by omega
  rw [← hmod, ← hput]
  apply get16_congr
  · simp [udpFields, Pbuf.put16, store]
  · simp [udpFields, Pbuf.put16, store]

theorem udpSend_eq (data : List Uchar) :
    udpSend data laddr lport raddr rport =
      { putCksum (udpFields ((getBuffer 1280).write 48 (data.take 1232)) (min data.length 1232)
          laddr lport raddr rport) 46 (min data.length 1232 + 48) with
        dlen := (min data.length 1232 : ℕ) + 48 } := by
  by_cases hlong : data.length > 1232
  · have hmin : min data.length 1232 = 1232 := by omega
    simp only [udpSend, if_pos hlong, hmin]
  · have hmin : min data.length 1232 = data.length := by omega
    have htake : data.take 1232 = data := List.take_of_length_le (by omega)
    simp only [udpSend, if_neg hlong, hmin, htake, List.take_length]

theorem udpSend_d {data : List Uchar} (h : data.length ≤ 1232) :
    (udpSend data laddr lport raddr rport).d =
      (putCksum (udpFields ((getBuffer 1280).write 48 data) data.length laddr lport raddr rport) 46
        (data.length + 48)).d := by
  have hmin : min data.length 1232 = data.length := by omega
  rw [udpSend_eq, hmin, List.take_of_length_le h]

theorem udpSend_verifies {data : List Uchar} (hdata : data.length ≤ 1232) :
    Verifies (udpSend data laddr lport raddr rport).d (data.length + 48) := by
  have hnext : (udpFields ((getBuffer 1280).write 48 data) data.length laddr lport raddr rport).d 6
      ≠ 0 := by
    rw [udpFields_next]
    decide
  rw [udpSend_d hdata]
  apply putCksum_verifies (by decide) (by decide) (by omega) (udpFields_zero (.inl rfl))
    (udpFields_zero (.inr rfl)) hnext
  rw [udpFields_paylen]
  omega

end

/-! ## ICMP -/

/-- The second evaluation of `~make_cksum` sees the high byte in place, and yields the same low
byte as the first. -/
theorem makeCksum_high_byte (hj : 8 ≤ j) (heven : j % 2 = 0) (hlen : j + 2 ≤ len) (h₀ : p j = 0)
    (h₁ : p (j + 1) = 0) (hpos : addBytes p len ≠ 0) :
    makeCksum (store p j [UInt8.ofInt (~~~(makeCksum p len : ℤ) / 256)]) len % 256 =
      makeCksum p len % 256 := by
  obtain ⟨c, hc⟩ : ∃ c, c = makeCksum p len := ⟨_, rfl⟩
  have hsum := makeCksum_reduces p len
  rw [← hc] at hsum ⊢
  have hlt := hsum.lt
  -- the high byte alone is the high byte of a word whose low byte is zero
  have hhigh : store p j [UInt8.ofInt (~~~(c : ℤ) / 256)] =
      store p j [UInt8.ofInt (~~~(c : ℤ) / 256), 0] := by
    have hsecond : store p j [UInt8.ofInt (~~~(c : ℤ) / 256)] (j + 1) = 0 :=
      (store_of_le (l := [_]) le_rfl).trans h₁
    rw [store_cons p j _ [0], store_self hsecond]
  have hnew := makeCksum_reduces (store p j [UInt8.ofInt (~~~(c : ℤ) / 256), 0]) len
  have hword : get16 (store p j [UInt8.ofInt (~~~(c : ℤ) / 256), 0]) j =
      (255 - c / 256) * 256 := by
    have hfirst : store p j [UInt8.ofInt (~~~(c : ℤ) / 256), 0] j =
        UInt8.ofInt (~~~(c : ℤ) / 256) := store_at (k := 0) (by simp)
    have hsecond : store p j [UInt8.ofInt (~~~(c : ℤ) / 256), 0] (j + 1) = 0 :=
      store_at (k := 1) (by simp)
    rw [get16, hfirst, hsecond, ofInt_toNat, complement_eq]
    simp only [UInt8.toNat_zero]
    omega
  rw [addBytes_store rfl hj heven hlen h₀ h₁, hword] at hnew
  -- the sum with the high byte added is `0xff00` and the old low byte
  have hold : Reduces 16 (c + (255 - c / 256) * 256)
      (addBytes p len + (255 - c / 256) * 256) := by
    refine ⟨by omega, hsum.mod.add_right _, ?_⟩
    have hne : c ≠ 0 := fun hzero => hpos (hsum.zero.mp hzero)
    omega
  rw [hhigh, hnew.unique hold]
  omega

theorem putCksumTwice_d {p : Pbuf} (hi : 8 ≤ i) (heven : i % 2 = 0) (hlen : i + 2 ≤ len)
    (h₀ : p.d i = 0) (h₁ : p.d (i + 1) = 0) (hnext : p.d 6 ≠ 0) :
    (putCksumTwice p i len).d = (putCksum p i len).d := by
  have hlow := makeCksum_high_byte hi heven hlen h₀ h₁ (addBytes_ne_zero hnext)
  have hbyte : UInt8.ofInt (~~~(makeCksum (store p.d i
      [UInt8.ofInt (~~~(makeCksum p.d len : ℤ) / 256)]) len : ℤ)) =
      UInt8.ofInt (~~~(makeCksum p.d len : ℤ)) := by
    generalize makeCksum (store p.d i _) len = c at hlow ⊢
    apply UInt8.toNat_inj.mp
    rw [ofInt_toNat, ofInt_toNat, complement_eq, complement_eq]
    omega
  simp only [putCksumTwice, putCksum, Pbuf.put16, Pbuf.write_d, hbyte, bytes16]
  exact (store_cons p.d i _ _).symm

variable {type code : Uchar} {value : Uint}

theorem icmpFields_zero {p : Pbuf} {len : ℤ} (hj : j = 42 ∨ j = 43) :
    (icmpFields p len src dst type code value).d j = 0 := by
  have hzero : bytes16 0 = [0, 0] := by decide
  rcases hj with rfl | rfl
  · simp [icmpFields, Pbuf.put16, hzero, store]
  · simp [icmpFields, Pbuf.put16, hzero, store]

theorem icmpFields_next {p : Pbuf} {len : ℤ} :
    (icmpFields p len src dst type code value).d 6 = 0x3a := by
  simp [icmpFields, Pbuf.put16, Pbuf.put32, store]

theorem icmpFields_paylen {p : Pbuf} {len : ℤ} :
    get16 (icmpFields p len src dst type code value).d 4 = ((len - 40) % 65536).toNat := by
  rw [← get16_bytes16 ((p.clear 48).write 0 [0x60]).d 4 (len - 40)]
  apply get16_congr
  · simp [icmpFields, Pbuf.put16, Pbuf.put32, store]
  · simp [icmpFields, Pbuf.put16, Pbuf.put32, store]

theorem makeIcmpHdr_verifies (p : Pbuf) (len : ℕ) (src dst : Addr) (type code : Uchar)
    (value : Uint) (hlen : len + 48 ≤ 1500) :
    Verifies (makeIcmpHdr p len src dst type code value).1.d (len + 48) := by
  have htotal : ((len : ℤ) + 48).toNat = len + 48 := by omega
  have h₀ : (icmpFields p (len + 48) src dst type code value).d 42 = 0 :=
    icmpFields_zero (.inl rfl)
  have h₁ : (icmpFields p (len + 48) src dst type code value).d 43 = 0 :=
    icmpFields_zero (.inr rfl)
  have hnext : (icmpFields p (len + 48) src dst type code value).d 6 ≠ 0 := by
    rw [icmpFields_next]
    decide
  simp only [makeIcmpHdr, htotal]
  rw [putCksumTwice_d (by decide) (by decide) (by omega) h₀ h₁ hnext]
  apply putCksum_verifies (by decide) (by decide) (by omega) h₀ h₁ hnext
  rw [icmpFields_paylen]
  omega

/-- The type is where `handle_icmp` looks for it. -/
theorem finishIcmp_type {p : Pbuf} {len : ℤ} :
    (finishIcmp p len src dst type code value).d 40 = type := by
  simp [finishIcmp, makeIcmpHdr, putCksumTwice, icmpFields, Pbuf.put16, Pbuf.put32, store]

theorem finishIcmp_next {p : Pbuf} {len : ℤ} :
    (finishIcmp p len src dst type code value).d 6 = 58 := by
  simp [finishIcmp, makeIcmpHdr, putCksumTwice, icmpFields, Pbuf.put16, Pbuf.put32, store]

/-- What follows the header is left as it is. -/
theorem finishIcmp_body {p : Pbuf} {len : ℤ} (hj : 48 ≤ j) :
    (finishIcmp p len src dst type code value).d j = p.d j := by
  simp only [finishIcmp, makeIcmpHdr, putCksumTwice, icmpFields, Pbuf.put16, Pbuf.put32,
    Pbuf.clear, Pbuf.write_d]
  rw [store_apart, store_apart, store_apart, store_apart, store_apart, store_apart, store_apart,
    store_apart, store_apart, store_apart, store_apart, store_apart, store_apart]
  all_goals
    simp
    omega

/-! ## All builders -/

/-- Every packet that one of the four builders produces verifies, and verifying means that the
one's-complement sum of the pseudo-header and the upper layer is all ones. -/
theorem emitted_verifies :
    (∀ (e : Endpoints) (t : Tcb) (buf : Pbuf) (dlen : ℕ) (flags : Uchar) (optwords : ℕ),
      (makeTcpHdr e t buf dlen flags optwords).2 ≤ 1500 →
        Verifies (makeTcpHdr e t buf dlen flags optwords).1.d
          (makeTcpHdr e t buf dlen flags optwords).2) ∧
    (∀ data : Mem Uchar, Verifies (tcpFabricateRst data).d 60) ∧
    (∀ (data : List Uchar) (laddr : Addr) (lport : ℕ) (raddr : Addr) (rport : ℕ),
      data.length ≤ 1232 →
        Verifies (udpSend data laddr lport raddr rport).d (data.length + 48)) ∧
    (∀ (p : Pbuf) (len : ℕ) (src dst : Addr) (type code : Uchar) (value : Uint),
      len + 48 ≤ 1500 →
        Verifies (makeIcmpHdr p len src dst type code value).1.d (len + 48)) ∧
    ∀ (p : Mem Uchar) (len : ℕ), 40 ≤ len → makeCksum p len = upperSum p len :=
  ⟨makeTcpHdr_verifies, tcpFabricateRst_verifies, fun _ _ _ _ _ => udpSend_verifies,
    makeIcmpHdr_verifies, fun p _ => makeCksum_eq_upperSum p⟩

/-- A UDP datagram of odd length. -/
theorem emitted_verifies_datagram :
    makeCksum (udpSend [1, 2, 3] mylladdr 53 otherlladdr 1024).d 51 = 0xffff ∧
      upperSum (udpSend [1, 2, 3] mylladdr 53 otherlladdr 1024).d 51 = 0xffff := by
  have hpacket := (emitted_verifies.2.2.1 [1, 2, 3] mylladdr 53 otherlladdr 1024 (by decide)).cksum
  have hsum := emitted_verifies.2.2.2.2 (udpSend [1, 2, 3] mylladdr 53 otherlladdr 1024).d 51
    (by decide)
  exact ⟨hpacket, hsum.symm.trans hpacket⟩

end Ptrtd.Wire
