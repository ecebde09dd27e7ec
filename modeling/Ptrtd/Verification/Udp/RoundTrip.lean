import Ptrtd.Library.Run
import Ptrtd.Verification.Udp.Checksum

/-! # Datagrams through the relay and back

A map keeps its IPv6 client for as long as it is in the list, and its socket belongs to no other
map. The reply that comes back through the socket goes to that client; its source is put together
from the IPv4 address and from memory that the source never sets. -/

namespace Ptrtd.Wire

open Circular (load)
open Table (Addr)

/-- No two maps share a socket. -/
def Udp.Distinct (s : Udp) : Prop := (s.ulist.map (·.fd)).Nodup

/-- The map is in the list, and is the one of its socket. -/
structure Udp.Holds (s : Udp) (um : UdpMap) : Prop where
  distinct : s.Distinct
  mem : um ∈ s.ulist

section

variable {s s' : Udp} {um : UdpMap} {r : Recv} {fd : ℤ} {data : List Uchar} {src : InAddr}
  {sport : ℕ} {pfx : Addr} {i : UdpInput}

theorem Udp.Holds.find (h : s.Holds um) : s.ulist.find? (fun x => x.fd = um.fd) = some um := by
  obtain ⟨hdistinct, hmem⟩ := h
  cases hfind : s.ulist.find? (fun x => x.fd = um.fd) with
  | none =>
      have := List.find?_eq_none.mp hfind um hmem
      simp at this
  | some x =>
      have hx : x.fd = um.fd := by simpa using List.find?_some hfind
      rw [List.inj_on_of_nodup_map hdistinct (List.mem_of_find?_eq_some hfind) hmem hx]

/-- What `udp_get_map` yields: a map of the client, in a list that has at most gained it. -/
theorem Udp.getMap_spec (s : Udp) (raddr : Addr) (rport : ℕ) (fd : ℤ) :
    (s.getMap raddr rport fd).2 ∈ (s.getMap raddr rport fd).1.ulist ∧
      (s.getMap raddr rport fd).2.raddr = raddr ∧ (s.getMap raddr rport fd).2.rport = rport ∧
      ((s.getMap raddr rport fd).1 = s ∨
        (s.getMap raddr rport fd).1 = { s with ulist := ⟨fd, raddr, rport⟩ :: s.ulist }) := by
  rw [Udp.getMap]
  cases hfind : s.ulist.find? fun um => um.rport = rport ∧ um.raddr = raddr with
  | none => exact ⟨List.mem_cons_self, rfl, rfl, .inr rfl⟩
  | some um =>
      have hkey := List.find?_some hfind
      simp only [decide_eq_true_eq] at hkey
      exact ⟨List.mem_of_find?_eq_some hfind, hkey.2, hkey.1, .inl rfl⟩

/-- A received packet adds at most a map for the new socket. -/
theorem Udp.handleUdp_ulist (s : Udp) (r : Recv) (fd : ℤ) :
    (s.handleUdp r fd).ulist = s.ulist ∨
      ∃ raddr rport, (s.handleUdp r fd).ulist = ⟨fd, raddr, rport⟩ :: s.ulist := by
  rw [Udp.handleUdp]
  split
  · rcases (s.getMap_spec r.src (get16 r.d 40) fd).2.2.2 with hsame | hnew
    · left
      simp only [Udp.incoming, hsame]
    · right
      exact ⟨r.src, get16 r.d 40, by simp only [Udp.incoming, hnew]⟩
  · exact .inl rfl

theorem Udp.Distinct.step (h : s.Distinct) (hstep : udpStep s i = some s') : s'.Distinct := by
  cases i with
  | packet r fd =>
      rw [udpStep] at hstep
      split at hstep
      · next hfresh =>
          obtain rfl := Option.some.inj hstep
          rcases s.handleUdp_ulist r fd with hsame | ⟨raddr, rport, hnew⟩
          · rw [Udp.Distinct, hsame]
            exact h
          · rw [Udp.Distinct, hnew, List.map_cons, List.nodup_cons]
            refine ⟨?_, h⟩
            rintro hmem
            obtain ⟨um, hum, heq⟩ := List.mem_map.mp hmem
            exact hfresh um hum heq
      · cases hstep
  | readable fd data src sport pfx =>
      obtain ⟨um, -, rfl⟩ := Option.map_eq_some_iff.mp hstep
      exact h
  | stale fd =>
      obtain ⟨um, -, rfl⟩ := Option.map_eq_some_iff.mp hstep
      exact h.sublist (List.erase_sublist.map _)

/-- A map stays in the list until it becomes stale. -/
theorem Udp.Holds.step (h : s.Holds um) (hstep : udpStep s i = some s')
    (hkeep : i ≠ .stale um.fd) : s'.Holds um := by
  refine ⟨h.distinct.step hstep, ?_⟩
  cases i with
  | packet r fd =>
      rw [udpStep] at hstep
      split at hstep
      · obtain rfl := Option.some.inj hstep
        rcases s.handleUdp_ulist r fd with hsame | ⟨raddr, rport, hnew⟩
        · rw [hsame]
          exact h.mem
        · rw [hnew]
          exact List.mem_cons_of_mem _ h.mem
      · cases hstep
  | readable fd data src sport pfx =>
      obtain ⟨um, -, rfl⟩ := Option.map_eq_some_iff.mp hstep
      exact h.mem
  | stale fd =>
      obtain ⟨x, hfind, rfl⟩ := Option.map_eq_some_iff.mp hstep
      have hx : x.fd = fd := by simpa using List.find?_some hfind
      have hne : um ≠ x := by
        rintro rfl
        exact hkeep (by rw [hx])
      exact (List.mem_erase_of_ne hne).mpr h.mem

/-- The map that a packet's client has after `incoming`. -/
def Udp.clientMap (s : Udp) (r : Recv) (fd : ℤ) : UdpMap := (s.getMap r.src (get16 r.d 40) fd).2

theorem Udp.holds_of_packet (h : s.Distinct) (hlisten : s.listening = true)
    (hstep : udpStep s (.packet r fd) = some s') : s'.Holds (s.clientMap r fd) := by
  refine ⟨h.step hstep, ?_⟩
  rw [udpStep] at hstep
  split at hstep
  · obtain rfl := Option.some.inj hstep
    have hspec := s.getMap_spec r.src (get16 r.d 40) fd
    simp only [Udp.handleUdp, hlisten, if_true, Udp.incoming]
    exact hspec.1
  · cases hstep

theorem Udp.listening_step (hstep : udpStep s i = some s') : s'.listening = s.listening := by
  cases i with
  | packet r fd =>
      rw [udpStep] at hstep
      split at hstep
      · obtain rfl := Option.some.inj hstep
        rw [Udp.handleUdp]
        split
        · rcases (s.getMap_spec r.src (get16 r.d 40) fd).2.2.2 with hsame | hnew
          · simp only [Udp.incoming, hsame]
          · simp only [Udp.incoming, hnew]
        · rfl
      · cases hstep
  | readable fd data src sport pfx =>
      obtain ⟨um, -, rfl⟩ := Option.map_eq_some_iff.mp hstep
      rfl
  | stale fd =>
      obtain ⟨um, -, rfl⟩ := Option.map_eq_some_iff.mp hstep
      rfl

theorem Udp.Holds.run (h : s.Holds um)
    (hrun : Transition.Run udpStep (fun _ i => i ≠ .stale um.fd) s s') : s'.Holds um := by
  induction hrun with
  | refl => exact h
  | tail _ hkeep hstep ih => exact ih.step hstep hkeep

theorem Udp.opened_of_run (hrun : Transition.Run udpStep Transition.Always Udp.init s) :
    s.Distinct ∧ s.listening = true := by
  induction hrun with
  | refl => exact ⟨List.nodup_nil, rfl⟩
  | tail _ _ hstep ih => exact ⟨ih.1.step hstep, (Udp.listening_step hstep).trans ih.2⟩

/-! ## The way back -/

/-- From `s` to `s'` nothing has been emitted over IPv6, or one datagram from `laddr`, `lport` to
`raddr`, `rport` with the given payload. -/
def Returns (laddr : Addr) (lport : ℕ) (raddr : Addr) (rport : ℕ) (data : List Uchar)
    (s s' : Udp) : Prop :=
  s'.sent6 = s.sent6 ∨
    ∃ p, s'.sent6 = s.sent6 ++ [p] ∧ getAddr p.d 8 = laddr ∧ get16 p.d 40 = lport ∧
      getAddr p.d 24 = raddr ∧ get16 p.d 42 = rport ∧ p.payload = data

/-- The address that a reply comes from is the one the client wrote to when the first twelve bytes
agree. -/
theorem embed_embedded_iff (pfx a : Addr) :
    embed pfx (embedded a) = a ↔ pfx.bytes.take 12 = a.bytes.take 12 := by
  constructor
  · intro h
    have hbytes := congrArg (fun x : Addr => x.bytes.take 12) h
    have hlen : (pfx.bytes.take 12).length = 12 := by simp
    simp only [embed] at hbytes
    rw [List.take_append_of_le_length (by omega), List.take_take, Nat.min_self] at hbytes
    exact hbytes
  · intro h
    obtain ⟨bytes, hlength⟩ := a
    simp only [embed, embedded, Addr.mk.injEq]
    rw [h, List.take_append_drop]

theorem returns_read_iff (um : UdpMap) (laddr : Addr) {lport : ℕ} (hlport : lport < 65536)
    (hrport : um.rport < 65536) :
    Returns laddr lport um.raddr um.rport data s
        (s.handleUdpRead um data (embedded laddr) lport pfx) ↔
      pfx.bytes.take 12 = laddr.bytes.take 12 ∧ data.length ≤ 1232 := by
  have hsent : (s.handleUdpRead um data (embedded laddr) lport pfx).sent6 =
      s.sent6 ++ [udpSend data (embed pfx (embedded laddr)) lport um.raddr um.rport] := rfl
  rw [Returns, hsent, ← embed_embedded_iff]
  constructor
  · rintro (hnone | ⟨p, hp, hsrc, -, -, -, hdata⟩)
    · simp at hnone
    · obtain rfl : udpSend data (embed pfx (embedded laddr)) lport um.raddr um.rport = p := by
        simpa using hp
      rw [udpSend_src] at hsrc
      rw [udpSend_payload] at hdata
      refine ⟨hsrc, ?_⟩
      have hlen := congrArg List.length hdata
      rw [List.length_take] at hlen
      omega
  · rintro ⟨hsrc, hlen⟩
    refine .inr ⟨_, rfl, ?_, ?_, udpSend_dst .., ?_, ?_⟩
    · rw [udpSend_src, hsrc]
    · rw [udpSend_sport, Nat.mod_eq_of_lt hlport]
    · rw [udpSend_dport, Nat.mod_eq_of_lt hrport]
    · rw [udpSend_payload, List.take_of_length_le hlen]

end

/-- A client's packet has made or found its map, and the map has not become stale since. A reply
of the IPv4 host then comes back as the client expects it just when the memory that
`handle_udp_read` never sets holds the prefix, and the reply is not cut off. -/
theorem returns_iff {s s₁ s₂ s₃ : Udp} {r : Recv} {fd : ℤ} {data : List Uchar} {pfx : Addr}
    (hreach : Transition.Run udpStep Transition.Always Udp.init s)
    (hpacket : udpStep s (.packet r fd) = some s₁)
    (hlater : Transition.Run udpStep (fun _ i => i ≠ .stale (s.clientMap r fd).fd) s₁ s₂)
    (hread : udpStep s₂ (.readable (s.clientMap r fd).fd data (embedded (getAddr r.d 24))
      (get16 r.d 42) pfx) = some s₃) :
    Returns (getAddr r.d 24) (get16 r.d 42) r.src (get16 r.d 40) data s₂ s₃ ↔
      pfx.bytes.take 12 = (getAddr r.d 24).bytes.take 12 ∧ data.length ≤ 1232 := by
  have hinv := Udp.opened_of_run hreach
  have hmap := Udp.holds_of_packet hinv.1 hinv.2 hpacket
  have hholds := hmap.run hlater
  have hclient := s.getMap_spec r.src (get16 r.d 40) fd
  have hraddr : (s.clientMap r fd).raddr = r.src := hclient.2.1
  have hrport : (s.clientMap r fd).rport = get16 r.d 40 := hclient.2.2.1
  rw [udpStep, hholds.find, Option.map_some, Option.some.injEq] at hread
  rw [← hread, ← hraddr, ← hrport]
  apply returns_read_iff _ _ (get16_lt _ _)
  rw [hrport]
  exact get16_lt _ _

/-! ## A query and its reply -/

/-- An IPv4 address behind the default prefix. -/
def translated : Addr := ⟨[0xfe, 0xc0, 0, 0, 0, 0, 0xff, 0xff, 0, 0, 0, 0, 192, 0, 2, 1], rfl⟩

/-- A datagram from the router to a name server behind the prefix. -/
def query : Recv := Recv.ofPbuf (udpSend [7] otherlladdr 1024 translated 53)

def Udp.asked : Udp := Udp.init.handleUdp query 5

theorem returns_iff_reply :
    Returns translated 53 otherlladdr 1024 [1] Udp.asked
      (Udp.asked.handleUdpRead ⟨5, otherlladdr, 1024⟩ [1] (embedded translated) 53 translated) := by
  have hdst : getAddr query.d 24 = translated := by decide +kernel
  have hsrc : query.src = otherlladdr := by decide +kernel
  have hdport : get16 query.d 42 = 53 := by decide +kernel
  have hsport : get16 query.d 40 = 1024 := by decide +kernel
  have hmap : Udp.init.clientMap query 5 = ⟨5, otherlladdr, 1024⟩ := by decide +kernel
  have hfind : Udp.asked.ulist.find? (fun um => um.fd = 5) = some ⟨5, otherlladdr, 1024⟩ := by
    decide +kernel
  have hread : udpStep Udp.asked (.readable (Udp.init.clientMap query 5).fd [1]
      (embedded (getAddr query.d 24)) (get16 query.d 42) translated) =
      some (Udp.asked.handleUdpRead ⟨5, otherlladdr, 1024⟩ [1] (embedded translated) 53
        translated) := by
    rw [hmap, udpStep, hfind, hdst, hdport]
    rfl
  have hreply := (returns_iff (s := Udp.init) .refl rfl .refl hread).mpr
    ⟨by rw [hdst], by decide⟩
  rw [hdst, hsrc, hdport, hsport] at hreply
  exact hreply

/-- With zeros on the stack the reply comes from another address than the client wrote to, and a
reply of 1233 bytes loses its last byte. -/
theorem reply_spoiled :
    udpStep Udp.init (.packet query 5) = some Udp.asked ∧
      (∃ s, udpStep Udp.asked (.readable 5 [1] (embedded translated) 53 Addr.zero) = some s ∧
        ¬Returns translated 53 otherlladdr 1024 [1] Udp.asked s) ∧
      ∃ s, udpStep Udp.asked
          (.readable 5 (List.replicate 1233 0) (embedded translated) 53 translated) = some s ∧
        ¬Returns translated 53 otherlladdr 1024 (List.replicate 1233 0) Udp.asked s := by
  have hfind : Udp.asked.ulist.find? (fun um => um.fd = 5) = some ⟨5, otherlladdr, 1024⟩ := by
    decide +kernel
  refine ⟨rfl, ⟨_, by rw [udpStep, hfind]; rfl, ?_⟩, ⟨_, by rw [udpStep, hfind]; rfl, ?_⟩⟩
  · rw [returns_read_iff ⟨5, otherlladdr, 1024⟩ translated (by decide) (by decide)]
    decide
  · rw [returns_read_iff ⟨5, otherlladdr, 1024⟩ translated (by decide) (by decide)]
    intro h
    have hlen := h.2
    rw [List.length_replicate] at hlen
    omega

end Ptrtd.Wire
