import Ptrtd.Verification.Packet.Lengths

/-! # Segments with RST

`handle_tcp` looks at RST after it has looked for the connection: a reset that finds none, or only
the listener, is answered by a reset like every other segment. -/

namespace Ptrtd.Wire

open SearchTree Transition
open Table (TcbNode TcbTree Arrival)

/-- No segment is sent in response, none waits for a neighbor, and no event that would send one
is registered. -/
structure Unanswered (d : Daemon) (h : Handled) : Prop where
  nd : h.daemon.nd = d.nd
  sent : ∀ a c', h.daemon.conn a = some c' →
    ∃ c, d.conn a = some c ∧ c'.trace.sent = c.trace.sent
  always : ∀ e ∈ h.daemon.ev.alwaysEventList, e ∈ d.ev.alwaysEventList
  time : ∀ e ∈ h.daemon.ev.timeEventList, e ∈ d.ev.timeEventList

/-- The first of the two keys that are looked for is that of a connection, or it is not in the
table and neither is the listener under the second, which is looked for if the port is not 0. -/
structure Matched (root : TcbTree) (p : Arrival) : Prop where
  first : ∀ t ∈ inorder root, t.key = p.needle.key → t.listening = false
  second : (∀ t ∈ inorder root, t.key ≠ p.needle.key) → p.lport ≠ 0 ∧
    ∀ t ∈ inorder root, t.key = Table.wildcard.key → t.listening = false

variable {rb : Table.Rebalance} {iface : Iface} {d d' : Daemon} {r : Recv} {h : Handled}
  {res : ConnectResult} {now : Timeval} {t : TcbNode} {c c' : Conn}

/-! ## A connection is found -/

theorem killMap_silent (hx : killMap c = some c') : c'.trace.sent = c.trace.sent ∧
    c'.ev.alwaysEventList = c.ev.alwaysEventList ∧ c'.ev.timeEventList = c.ev.timeEventList := by
  obtain ⟨-, l, b, rfl⟩ := killMap_eq hx
  exact ⟨rfl, rfl, rfl⟩

theorem cbClosing_silent (hx : cbClosing c = some c') : c'.trace.sent = c.trace.sent ∧
    c'.ev.alwaysEventList = c.ev.alwaysEventList ∧ c'.ev.timeEventList = c.ev.timeEventList := by
  rcases cbClosing_cases hx with ⟨rfl, -⟩ | ⟨-, hkill⟩
  · exact ⟨rfl, rfl, rfl⟩
  · exact killMap_silent hkill

/-- Events are only taken out. -/
theorem mem_of_mem_removed {e : Event} {ev : EventLists} {a b : Option ℕ} :
    (e ∈ (removeTime? (removeAlways? ev a) b).alwaysEventList → e ∈ ev.alwaysEventList) ∧
      (e ∈ (removeTime? (removeAlways? ev a) b).timeEventList → e ∈ ev.timeEventList) := by
  have hdel : ∀ {addr l}, e ∈ delEvent addr l → e ∈ l := fun he => (mem_delEvent.mp he).1
  cases a <;> cases b <;> exact ⟨fun he => by first | exact he | exact hdel he,
    fun he => by first | exact he | exact hdel he⟩

/-- The branch for RST sends nothing and registers nothing. -/
theorem handleRst_silent (hx : handleRst c = some c') : c'.trace.sent = c.trace.sent ∧
    (∀ e ∈ c'.ev.alwaysEventList, e ∈ c.ev.alwaysEventList) ∧
      ∀ e ∈ c'.ev.timeEventList, e ∈ c.ev.timeEventList := by
  obtain ⟨a, ha, rfl⟩ := Option.map_eq_some_iff.mp hx
  obtain ⟨hsent, halways, htime⟩ := cbClosing_silent ha
  refine ⟨hsent, fun e he => ?_, fun e he => ?_⟩
  · rw [← halways]
    exact mem_of_mem_removed.1 he
  · rw [← htime]
    exact mem_of_mem_removed.2 he

theorem Daemon.put_fields (hput : d.put rb t c = some d') :
    d'.conn = Function.update d.conn t.addr (some c) ∧ d'.ev = c.ev ∧ d'.nd = d.nd := by
  rw [Daemon.put] at hput
  dsimp only at hput
  split at hput
  · obtain rfl := Option.some.inj hput
    exact ⟨rfl, rfl, rfl⟩
  · obtain ⟨tcbs, -, rfl⟩ := Option.map_eq_some_iff.mp hput
    exact ⟨rfl, rfl, rfl⟩

/-- A reset that finds a connection is not answered. -/
theorem unanswered_of_found (hrst : r.segment.isRst = true)
    (hfind : r.arrival.find d.tcbs.root = some (some t)) (hconn : t.listening = false)
    (hx : d.handleTcp rb iface r now res = some h) : Unanswered d h := by
  rw [Daemon.handleTcp, hfind] at hx
  simp only [Option.bind_some, hconn, Bool.false_eq_true, if_false] at hx
  obtain ⟨c, hget, hx⟩ := Option.bind_eq_some_iff.mp hx
  obtain ⟨c', htcp, hx⟩ := Option.bind_eq_some_iff.mp hx
  obtain ⟨d', hput, rfl⟩ := Option.map_eq_some_iff.mp hx
  obtain ⟨c₀, hc₀, rfl⟩ := Option.map_eq_some_iff.mp hget
  rw [Ptrtd.handleTcp, if_pos hrst] at htcp
  obtain ⟨hsent, halways, htime⟩ := handleRst_silent htcp
  obtain ⟨hconns, hev, hnd⟩ := Daemon.put_fields hput
  refine ⟨hnd, fun a x hax => ?_, fun e he => ?_, fun e he => ?_⟩
  · rw [hconns] at hax
    by_cases ha : a = t.addr
    · subst ha
      rw [Function.update_self] at hax
      obtain rfl := Option.some.inj hax
      exact ⟨c₀, hc₀, hsent⟩
    · rw [Function.update_of_ne ha] at hax
      exact ⟨x, hax, rfl⟩
  · exact halways e (hev ▸ he)
  · exact htime e (hev ▸ he)

/-! ## None is found -/

/-- The packets that wait for a neighbor. -/
def Nd.waiting (s : Nd) : ℕ := (s.nlist.map fun n => n.queue.length).sum

theorem Nd.waiting_queuePacket {s : Nd} {addr : Table.Addr} {n : Neighbor} {p : Pbuf}
    (hn : s.findNeighbor addr = some n) : (s.queuePacket addr p).waiting = s.waiting + 1 := by
  obtain ⟨l, sent⟩ := s
  rw [Nd.findNeighbor] at hn
  rw [Nd.queuePacket, Nd.update, Nd.waiting, Nd.waiting]
  dsimp only at hn ⊢
  induction l with
  | nil => cases hn
  | cons m l ih =>
      rw [Nd.update.updateFirst]
      split
      · simp only [List.map_cons, List.sum_cons, List.length_append, List.length_singleton]
        omega
      · next hne =>
          rw [List.find?_cons_of_neg (by simpa using hne)] at hn
          simp only [List.map_cons, List.sum_cons, ih hn]
          omega

/-- `send_pkt` hands the packet to the driver, or keeps it for the neighbor. -/
theorem Nd.sendPkt_ne (s : Nd) (p : Pbuf) : s.sendPkt iface p ≠ s := by
  have hsent : ∀ {t : Nd}, s.sent.length < t.sent.length → t ≠ s := by
    rintro t hlt rfl
    exact lt_irrefl _ hlt
  have htransmit : ∀ hw, (s.transmit p hw) ≠ s := fun hw => hsent (by simp [Nd.transmit])
  rw [Nd.sendPkt]
  split
  · exact htransmit _
  · split
    · dsimp only
      split
      · next n hn =>
          split
          · exact htransmit _
          · intro heq
            have hwait := Nd.waiting_queuePacket (p := p) hn
            rw [heq] at hwait
            omega
      · exact hsent (by
          simp [Nd.queuePacket, Nd.update, Nd.addNeighbor, Nd.icmpSendNs, Nd.transmit])
    · exact htransmit _

/-- A segment that finds no connection and no SYN is answered. -/
theorem answered_of_not_found (hrst : r.segment.isRst = true)
    (hfind : r.arrival.find d.tcbs.root = some none ∨
      ∃ t, r.arrival.find d.tcbs.root = some (some t) ∧ t.listening = true) :
    d.handleTcp rb iface r now res =
      some { daemon := d.fabricateRst iface r, taken := none, terminator := none } := by
  have hflags : r.segment.flags ≠ 0x2 := by
    intro heq
    rw [Segment.isRst, heq] at hrst
    exact absurd hrst (by decide)
  rcases hfind with hnone | ⟨t, ht, hlisten⟩
  · rw [Daemon.handleTcp, hnone]
    rfl
  · rw [Daemon.handleTcp, ht]
    simp only [Option.bind_some, hlisten, if_true, if_neg hflags]

theorem Unanswered.ne_fabricated (hun : Unanswered d h) : h.daemon ≠ d.fabricateRst iface r := by
  intro heq
  have hnd := hun.nd
  rw [heq] at hnd
  exact Nd.sendPkt_ne d.nd _ hnd

/-! ## The lookup -/

theorem Recv.lport_eq_zero_iff : r.arrival.lport = 0 ↔ ¬r.arrival.lport.toNat > 0 := by
  rw [← BitVec.toNat_inj]
  simp

theorem find_of_key {root : TcbTree} (hsorted : Sorted TcbNode.key root) (needle : TcbNode) :
    (∀ t, find (Table.tcbcmp needle) root = some t → t.listening = false) ↔
      ∀ t ∈ inorder root, t.key = needle.key → t.listening = false :=
  ⟨fun hall t ht hkey => hall t (find_of_mem hsorted Table.compares_tcbcmp ht hkey),
    fun hall t hfind => hall t (find_mem hfind) (find_key Table.compares_tcbcmp hfind)⟩

/-- What the lookup yields when the segment is matched. -/
theorem matched_iff_find (hsorted : Sorted TcbNode.key d.tcbs.root) :
    Matched d.tcbs.root r.arrival ↔ r.arrival.find d.tcbs.root ≠ some none ∧
      ∀ t, r.arrival.find d.tcbs.root = some (some t) → t.listening = false := by
  have hfirst := find_of_key hsorted r.arrival.needle
  have hsecond := find_of_key hsorted Table.wildcard
  have hnone := find_eq_none_iff (x := r.arrival.needle) hsorted Table.compares_tcbcmp
  have hmatched : Matched d.tcbs.root r.arrival ↔
      (∀ t, find (Table.tcbcmp r.arrival.needle) d.tcbs.root = some t → t.listening = false) ∧
        (find (Table.tcbcmp r.arrival.needle) d.tcbs.root = none → r.arrival.lport.toNat > 0 ∧
          ∀ t, find (Table.tcbcmp Table.wildcard) d.tcbs.root = some t → t.listening = false) := by
    rw [hfirst, hsecond, hnone, ← not_iff_not.mpr Recv.lport_eq_zero_iff |>.trans not_not]
    exact ⟨fun h => ⟨h.first, h.second⟩, fun h => ⟨h.1, h.2⟩⟩
  rw [hmatched, Arrival.find_eq]
  cases find (Table.tcbcmp r.arrival.needle) d.tcbs.root with
  | some t => simp
  | none =>
      by_cases hport : r.arrival.lport.toNat > 0
      · cases find (Table.tcbcmp Table.wildcard) d.tcbs.root <;> simp [hport]
      · simp [hport]

/-- In a table that occurs, a connection has the segment's remote end and local port. Without the
listener, which is only missing with everything else, the lookup does not return. -/
theorem matched_iff_connection (hlaw : rb.Lawful) (hs : Table.TableReached rb d.tcbs) :
    Matched d.tcbs.root r.arrival ↔
      (∃ t ∈ inorder d.tcbs.root, t.key = r.arrival.needle.key ∧ t.listening = false) ∨
        inorder d.tcbs.root = [] ∧ r.arrival.lport ≠ 0 := by
  have hform := hs.formed hlaw
  constructor
  · intro hmatched
    by_cases hkey : ∀ t ∈ inorder d.tcbs.root, t.key ≠ r.arrival.needle.key
    · obtain ⟨hport, hlisten⟩ := hmatched.second hkey
      refine .inr ⟨hform.root.listener.resolve_right ?_, hport⟩
      rintro ⟨t, ht, hlistening⟩
      have hzero := hform.listening t (hform.root.live t ht) hlistening
      rw [hlisten t ht hzero] at hlistening
      cases hlistening
    · push Not at hkey
      obtain ⟨t, ht, hkey⟩ := hkey
      exact .inl ⟨t, ht, hkey, hmatched.first t ht hkey⟩
  · rintro (⟨t, ht, hkey, hconn⟩ | ⟨hnil, hport⟩)
    · refine ⟨fun u hu hukey => ?_, fun hnot => absurd hkey (hnot t ht)⟩
      obtain rfl := hform.root.sorted.eq_of_key hu ht (hukey.trans hkey.symm)
      exact hconn
    · exact ⟨by simp [hnil], fun _ => ⟨hport, by simp [hnil]⟩⟩

/-- A segment with RST is not answered exactly if the lookup ends at a connection, or not at
all. -/
theorem unanswered_iff_matched (rb : Table.Rebalance) (iface : Iface) (d : Daemon) (r : Recv)
    (now : Timeval) (res : ConnectResult) (hsorted : Sorted TcbNode.key d.tcbs.root)
    (hrst : r.segment.isRst = true) :
    (∀ h, d.handleTcp rb iface r now res = some h → Unanswered d h) ↔
      Matched d.tcbs.root r.arrival := by
  rw [matched_iff_find hsorted]
  constructor
  · intro hall
    refine ⟨fun hnone => ?_, fun t ht => ?_⟩
    · exact (hall _ (answered_of_not_found hrst (.inl hnone))).ne_fabricated rfl
    · by_contra hlisten
      rw [Bool.not_eq_false] at hlisten
      exact (hall _ (answered_of_not_found hrst (.inr ⟨t, ht, hlisten⟩))).ne_fabricated rfl
  · rintro ⟨hnone, hconn⟩ h hx
    obtain ⟨found, hfind, -⟩ := Option.bind_eq_some_iff.mp hx
    cases found with
    | none => exact absurd hfind hnone
    | some t => exact unanswered_of_found hrst hfind (hconn t hfind) hx

/-- A reset from the client's host and port to port 80. -/
def resetPacket : Recv := packet 6 20 [4, 0, 0, 80, 0, 0, 0, 0, 0,
  0, 0, 0, 0x50, 4, 0, 0, 0, 0, 0, 0] 0

/-- The reset for an established connection. -/
theorem unanswered_iff_matched_established : ∃ d h,
    d.handleTcp .plain tapIface resetPacket ⟨0, 0⟩ .noSocket = some h ∧ Unanswered d h := by
  obtain ⟨c, hreach, hself, hlive, -⟩ := reached_establishedConn 1 (by decide +kernel)
  have hlaw := Table.Rebalance.lawful_plain
  have hpos : 0 < resetPacket.arrival.lport.toNat := by decide +kernel
  obtain ⟨htable, hmem, hfind, -⟩ := Table.tableReached_first hlaw hpos
  have hsound : Sound (c.receive resetPacket.segment) :=
    ⟨(WellFormed.of_reached hreach).receive _, (Attached.of_reached hreach).of_eq rfl rfl rfl,
      hlive⟩
  obtain ⟨h, -, hx, -⟩ := Daemon.serving_handles tapIface ⟨0, 0⟩ .noSocket hlaw hpos hsound
  refine ⟨_, h, hx, ?_⟩
  have hsorted := (htable.formed hlaw).root.sorted
  apply (unanswered_iff_matched _ _ _ _ _ _ hsorted (by decide +kernel)).mpr _ h hx
  have hkey : (Table.firstNode resetPacket.arrival).key = resetPacket.arrival.needle.key := rfl
  refine ⟨fun t ht htkey => ?_, fun hnot => absurd hkey (hnot _ hmem)⟩
  obtain rfl := hsorted.eq_of_key ht hmem (htkey.trans hkey.symm)
  rfl

/-- A daemon without connections answers a reset with a reset. -/
theorem reset_answered : ¬∀ (rb : Table.Rebalance) (iface : Iface) (d : Daemon) (r : Recv)
    (now : Timeval) (res : ConnectResult), d.Valid rb iface → r.segment.isRst = true →
      ∀ h, d.handleTcp rb iface r now res = some h → Unanswered d h := by
  intro hall
  have hvalid := Daemon.valid_start .plain tapIface
  have hfind : ∃ t, resetPacket.arrival.find (Daemon.start .plain).tcbs.root = some (some t) ∧
      t.listening = true := by
    refine ⟨Table.tcbNode 0 true none 0 none 0, ?_, rfl⟩
    decide +kernel
  have hrst : resetPacket.segment.isRst = true := by decide +kernel
  have hun := hall _ _ _ _ ⟨0, 0⟩ .noSocket hvalid hrst _ (answered_of_not_found hrst (.inr hfind))
  exact hun.ne_fabricated rfl

end Ptrtd.Wire
