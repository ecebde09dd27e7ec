import Ptrtd.Verification.Send.Drain
import Ptrtd.Verification.System.Correctness
import Ptrtd.Verification.Table.Lookup

/-! # The daemon never gets stuck

A callback that would follow a null pointer, copy outside of a buffer or use a block that has been
freed has no result. None of the events that are registered leads there, as long as the packets
are not of the kinds whose answers overflow: an error that `icmp_send_error` quotes, an echo
request without a whole header, and data that fill the buffer of the interface. -/

namespace Ptrtd

variable {c : Conn} {e : Event} {l : List Event} {now : Timeval}

/-! ## The callbacks of a connection -/

/-- How much `handle_fd_can_read` asks for. -/
def readSize (t : Tcb) : ℤ :=
  if tcpGetOutputSpace t < 0 ∨ tcpGetOutputSpace t > tbSize then tbSize else tcpGetOutputSpace t

/-- What the system may report to a socket callback. `read` returns at most what it is asked for,
and `write` takes at most what it is given. -/
def Reports (c : Conn) (e : Event) : Io → Prop
  | .read r => e.func = .handleFdCanRead ∧
      ∀ d, r = .data d → 0 < d.length ∧ d.length ≤ readSize c.tcb
  | .write r => e.func = .handleFdCanWrite ∧
      ∀ n a d, r = .wrote n → tcpRead c tbSize = some (a, d) → n ≤ d.length
  | .connect _ => e.func = .handleFdDidConnect

theorem findEvent_of_mem (hnodup : (l.map Event.addr).Nodup) (he : e ∈ l) :
    findEvent l e.addr e.data = some e := by
  cases hfind : findEvent l e.addr e.data with
  | none =>
      have hnone := List.find?_eq_none.mp hfind e he
      exact absurd (decide_eq_true ⟨rfl, rfl⟩) hnone
  | some x =>
      have hx := List.mem_of_find?_eq_some hfind
      obtain ⟨haddr, -⟩ : x.addr = e.addr ∧ x.data = e.data := by
        simpa using List.find?_some hfind
      rw [List.inj_on_of_nodup_map hnodup hx he haddr]

theorem closeBoth_isSome (hmap : c.map.isSome = true) : (closeBoth c).isSome = true := by
  have hkept : (tcpClose c false).map = c.map := by
    have hclosed := tcpClose_cases (rfl : tcpClose c false = _)
    generalize tcpClose c false = x at hclosed ⊢
    cases hclosed with
    | reset => rfl
    | fin => rfl
  rw [closeBoth, killMap, Option.isSome_map, hkept]
  exact hmap

theorem tcpSend_isSome (hok : c.tcb.outbuf.Ok) (d : List Uchar) :
    (tcpSend c d).isSome = true := by
  obtain ⟨r, n, hw, -⟩ := Buffer.rbWrite_spec hok d
  rw [tcpSend, Option.isSome_map, hw]
  rfl

theorem tcpRead_isSome (hfrom : c.tcb.inbuf.From c.tcb.readSeq) (n : ℕ) :
    (tcpRead c n).isSome = true := by
  have hlen : readLen c.tcb n = (min n c.tcb.inbuf.used : ℕ) := by
    rw [readLen, Buffer.from_avail hfrom]
    split <;> omega
  have hread : (rbRead c.tcb.inbuf c.tcb.readSeq (readLen c.tcb n)).isSome = true := by
    rw [hlen, Buffer.from_read hfrom]
    rfl
  rw [readLen] at hread
  rw [tcpRead, Option.isSome_map]
  exact hread

/-- A connection that is alive, with sound buffers and a map if it is attached. -/
structure Ready (c : Conn) : Prop where
  sound : Sound c
  outbuf : c.tcb.outbuf.Ok
  addressed : c.ev.Addressed

namespace Ready

theorem timeEvent (h : Ready c) (he : e ∈ c.ev.timeEventList) (hdata : e.data = .tcb c.self)
    (hfunc : e.func = .tcpTimeout ∨ e.func = .tcpRemove) :
    ∃ c', step c (.timeEvent e.addr) = some c' := by
  have hfind : findEvent c.ev.timeEventList e.addr e.data = some e :=
    findEvent_of_mem (h.addressed .time).1 he
  rw [hdata] at hfind
  rw [step.eq_def, if_pos h.sound.live]
  dsimp only
  rw [runTimeEvent, hfind, Option.bind_some]
  rcases hfunc with hfunc | hfunc <;> rw [hfunc] <;> exact ⟨_, rfl⟩

theorem alwaysEvent (h : Ready c) (he : e ∈ c.ev.alwaysEventList)
    (hdata : e.data = .tcb c.self) (hfunc : e.func = .doTcbWrite) (now : Timeval) :
    ∃ c', step c (.alwaysEvent e.addr now) = some c' := by
  have hfind : findEvent c.ev.alwaysEventList e.addr e.data = some e :=
    findEvent_of_mem (h.addressed .always).1 he
  rw [hdata] at hfind
  obtain ⟨x, hx⟩ := Option.isSome_iff_exists.mp (doTcbWrite_defined h.outbuf now)
  rw [step.eq_def, if_pos h.sound.live]
  dsimp only
  rw [runAlwaysEvent, hfind, Option.bind_some, hfunc]
  dsimp only
  rw [hx]
  exact ⟨_, rfl⟩

theorem canRead (h : Ready c) {r : ReadResult} (hmap : c.map.isSome = true)
    (hr : Reports c e (.read r)) : (handleFdCanRead c r).isSome = true := by
  obtain ⟨m, hm⟩ := Option.isSome_iff_exists.mp hmap
  obtain ⟨-, hdata⟩ := hr
  rw [handleFdCanRead, hm, Option.bind_some]
  dsimp only
  rw [readSize] at hdata
  generalize (if tcpGetOutputSpace c.tcb < 0 ∨ tcpGetOutputSpace c.tcb > tbSize then (tbSize : ℤ)
    else tcpGetOutputSpace c.tcb) = len at hdata ⊢
  split
  · rfl
  · cases r with
    | again => rfl
    | eof =>
        rw [Option.isSome_map]
        exact closeBoth_isSome rfl
    | error =>
        rw [Option.isSome_map]
        exact closeBoth_isSome rfl
    | data d =>
        obtain ⟨x, hx⟩ := Option.isSome_iff_exists.mp (tcpSend_isSome h.outbuf d)
        dsimp only
        rw [if_pos (hdata d rfl), hx, Option.bind_some]
        split <;> rfl

theorem canWrite (h : Ready c) {r : WriteResult} (hmap : c.map.isSome = true)
    (hr : Reports c e (.write r)) : (handleFdCanWrite c r).isSome = true := by
  obtain ⟨m, hm⟩ := Option.isSome_iff_exists.mp hmap
  obtain ⟨⟨a, d⟩, hread⟩ :=
    Option.isSome_iff_exists.mp (tcpRead_isSome h.sound.wellFormed.inbuf tbSize)
  have hma : a.map = some m := by
    obtain ⟨-, hmap, -⟩ := tcpRead_fd hread
    exact hmap.trans hm
  have hafter : (if d.length < tbSize then { a with map := some { m with eFdWrite := none } }
      else a).map.isSome = true := by
    split
    · rfl
    · rw [hma]
      rfl
  obtain ⟨m', hm'⟩ := Option.isSome_iff_exists.mp hafter
  rw [handleFdCanWrite, hm, Option.bind_some, hread, Option.bind_some]
  dsimp only
  cases r with
  | again => rfl
  | error =>
      dsimp only
      rw [hm', Option.bind_some, Option.isSome_map]
      exact closeBoth_isSome rfl
  | wrote n =>
      dsimp only
      rw [if_pos (hr.2 n a d rfl hread)]
      split
      · rw [hm', Option.bind_some, Option.isSome_map]
        exact closeBoth_isSome rfl
      · rfl

theorem didConnect (ok : Bool) (hmap : c.map.isSome = true) :
    (handleFdDidConnect c ok).isSome = true := by
  obtain ⟨m, hm⟩ := Option.isSome_iff_exists.mp hmap
  rw [handleFdDidConnect, hm, Option.bind_some]
  dsimp only
  cases ok with
  | true => rfl
  | false =>
      rw [if_neg Bool.false_ne_true, Option.isSome_map]
      exact closeBoth_isSome rfl

theorem fdEvent (h : Ready c) {io : Io} (he : e ∈ c.ev.fdEventList)
    (hdata : e.data = .tcpMap c.self) (hmap : c.map.isSome = true) (hr : Reports c e io) :
    ∃ c', step c (.fdEvent e.addr io) = some c' := by
  have hfind : findEvent c.ev.fdEventList e.addr e.data = some e :=
    findEvent_of_mem (h.addressed .fd).1 he
  rw [hdata] at hfind
  rw [step.eq_def, if_pos h.sound.live]
  dsimp only
  rw [runFdEvent, hfind, Option.bind_some]
  cases io with
  | read r =>
      obtain ⟨x, hx⟩ := Option.isSome_iff_exists.mp (h.canRead hmap hr)
      rw [hr.1]
      dsimp only
      rw [hx]
      exact ⟨_, rfl⟩
  | write r =>
      obtain ⟨x, hx⟩ := Option.isSome_iff_exists.mp (h.canWrite hmap hr)
      rw [hr.1]
      dsimp only
      rw [hx]
      exact ⟨_, rfl⟩
  | connect ok =>
      obtain ⟨x, hx⟩ := Option.isSome_iff_exists.mp (didConnect ok hmap)
      rw [(hr : e.func = .handleFdDidConnect)]
      dsimp only
      rw [hx]
      exact ⟨_, rfl⟩

theorem packet (h : Ready c) (s : Segment) (now : Timeval) :
    ∃ c', handleTcp (c.receive s) s now = some c' := by
  have hsound : Sound (c.receive s) :=
    ⟨h.sound.wellFormed.receive s, h.sound.attached.of_eq rfl rfl rfl, h.sound.live⟩
  exact Option.isSome_iff_exists.mp (hsound.handleTcp s now)

end Ready

namespace Wire

open Table (TcbNode Exact Formed)

variable {rb : Table.Rebalance} {iface : Iface} {ok : Conn → Input → Prop} {s s' : System}
  {a : ℕ} {i : SystemInput} {r : Recv} {res : ConnectResult} {t : TcbNode}

/-! ## The table -/

/-- While the listener is in the table, every lookup returns. -/
theorem Whole.find_exists (h : Whole rb ok s) (hexact : Exact s.tcbs) (p : Table.Arrival) :
    ∃ found, p.find s.tcbs.root = some found := by
  obtain ⟨l, hl, hlisten⟩ := h.formed.listener
  have hpresent : Table.Present s.tcbs.root none 0 none 0 :=
    ⟨l, (hexact l).mpr hl, h.formed.listening l hl hlisten⟩
  obtain ⟨w, hw⟩ := Table.tcbFind_present h.formed.root.sorted hpresent 0
  rw [Table.Arrival.find, Table.tcbFind]
  split
  · exact ⟨_, rfl⟩
  · rw [if_neg (by simp), if_neg (by simp)]
    split
    · exact ⟨_, hw⟩
    · exact ⟨_, rfl⟩

/-- A block can be deleted while no tree has been cut off. -/
theorem tcbDelete_isSome {tcbs : Table.Tcbs} (hdetached : SearchTree.inorder tcbs.detached = []) :
    (Table.tcbDelete rb tcbs t).isSome = true := by
  rw [Table.tcbDelete, Option.isSome_map, Table.rbErase]
  split
  · rfl
  · rw [if_neg (by rw [hdetached]; exact List.not_mem_nil)]
    split <;> rfl

theorem Whole.detached (h : Whole rb ok s) (hexact : Exact s.tcbs) :
    SearchTree.inorder s.tcbs.detached = [] := by
  obtain ⟨l, hl, -⟩ := h.formed.listener
  refine h.formed.one.resolve_left fun hempty => ?_
  have hmem := (hexact l).mpr hl
  rw [hempty] at hmem
  cases hmem

theorem put_isSome {d : Daemon} {c : Conn} (hdetached : SearchTree.inorder d.tcbs.detached = []) :
    (d.put rb t c).isSome = true := by
  rw [Daemon.put]
  dsimp only
  split
  · rfl
  · rw [Option.isSome_map]
    exact tcbDelete_isSome hdetached

/-! ## The callbacks in the daemon -/

/-- What the system may report for an event of the daemon. `ALLOC` and `socket` yield what is not
in use. -/
def System.Reports (s : System) (e : Event) : SystemIo → Prop
  | .frame _ um fd _ _ res => e.data = .iface ∧ um ∉ s.udp.allocated ∧ s.udp.opened fd = false ∧
      freshSocket s.udp.opened res = true
  | .tcp io => ∃ a c, e.data = .tcpMap a ∧ s.get a = some c ∧ Ptrtd.Reports c e io
  | .datagram _ _ _ _ _ => ∃ um, e.data = .udpMap um

/-- The packets that are handled within their buffers: the next header is known, an echo request
has a whole header, and behind the data of a segment there is room for one byte. -/
def Recv.Answerable (r : Recv) : Prop :=
  (r.d 6 = 0 ∨ r.d 6 = 6 ∨ r.d 6 = 17 ∨ r.d 6 = 58) ∧
    (r.d 6 = 58 → r.d 40 = 128 → 48 ≤ r.len) ∧ (r.d 6 = 6 → r.doff < r.len → r.len < r.cap)

/-- A packet that arrives is one of these. -/
def SystemIo.Fits : SystemIo → Prop
  | .frame r _ _ _ _ _ => r.Answerable
  | _ => True

theorem registered_of_mem {l : List Event} {e : Event} (hnodup : (l.map Event.addr).Nodup)
    (he : e ∈ l) : registered l e.addr = some e := by
  cases hfind : registered l e.addr with
  | none => exact absurd (decide_eq_true rfl) (List.find?_eq_none.mp hfind e he)
  | some x =>
      have hx := List.mem_of_find?_eq_some hfind
      have haddr : x.addr = e.addr := by simpa using List.find?_some hfind
      rw [List.inj_on_of_nodup_map hnodup hx he haddr]

/-- A live connection of the daemon can be called. -/
theorem Whole.ready (h : Whole rb Cooperative s) {c : Conn} (hc : s.get a = some c)
    (hlive : c.live = true) (hspace : InSpace c) : Ready c := by
  have hreach := (h.reached a c hc).reached hlive fun _ _ => ⟨hspace, trivial⟩
  obtain ⟨-, hloc, -⟩ := timers_of_sentOnly (fun _ _ hok => hok.1) hreach
  obtain ⟨b, w, u, n, -, hkept⟩ := hloc hlive
  obtain ⟨x, -, rfl⟩ := System.get_eq_some hc
  exact ⟨⟨.of_reached hreach, .of_reached hreach, hlive⟩, hkept.buffered.ok, h.addressed⟩

theorem Whole.onConn_exists (h : Whole rb ok s) (hexact : Exact s.tcbs) {c c' : Conn} {j : Input}
    (hc : s.get a = some c) (hlive : c.live = true) (hnext : Ptrtd.step c j = some c') :
    ∃ s', s.onConn rb a j = some s' := by
  obtain ⟨x, hx, rfl⟩ := System.get_eq_some hc
  obtain ⟨t, ht, haddr, -⟩ := h.live a x hx hlive
  have hfind : s.tcbs.live.find? (fun t => t.addr = a) = some t := by
    cases hfind : s.tcbs.live.find? (fun t => t.addr = a) with
    | none => exact absurd (decide_eq_true haddr) (List.find?_eq_none.mp hfind t ht)
    | some u =>
        have hu := List.mem_of_find?_eq_some hfind
        have huaddr : u.addr = a := by simpa using List.find?_some hfind
        rw [h.addr u hu t ht (huaddr.trans haddr.symm)]
  have hget : s.daemon.get t = some { x with ev := s.udp.ev } := by
    rw [Daemon.get, haddr]
    exact hc
  rw [System.onConn, hfind, Option.bind_some, hget, Option.bind_some, hnext, Option.bind_some]
  refine Option.isSome_iff_exists.mp ?_
  rw [Option.isSome_map]
  exact put_isSome (h.detached hexact)

theorem handleSyn_exists {self : ℕ} {isn : Uint} {ev : EventLists} {syn : Segment}
    (res : ConnectResult) (hflags : syn.flags = 0x2) :
    ∃ c, handleSyn self .tcpMapCb isn ev syn res = some c := by
  rw [handleSyn, if_pos hflags]
  cases res with
  | noSocket => exact Option.isSome_iff_exists.mp (closeBoth_isSome rfl)
  | connected fd => exact ⟨_, rfl⟩
  | inProgress fd => exact ⟨_, rfl⟩
  | failed fd => exact Option.isSome_iff_exists.mp (closeBoth_isSome rfl)

/-- What `tcp_recv_data` writes behind the data. -/
theorem terminator_of_handleTcp {d : Daemon} {handled : Handled} {now : Timeval}
    (hroom : r.doff < r.len → r.len < r.cap)
    (h : d.handleTcp rb iface r now res = some handled) :
    handled.terminator.all (· < r.cap) = true := by
  obtain ⟨found, -, h⟩ := Option.bind_eq_some_iff.mp h
  cases found with
  | none =>
      obtain rfl := Option.some.inj h
      rfl
  | some t =>
      dsimp only at h
      split at h
      · split at h
        · obtain ⟨c, -, h⟩ := Option.bind_eq_some_iff.mp h
          obtain ⟨d', -, rfl⟩ := Option.map_eq_some_iff.mp h
          rfl
        · obtain rfl := Option.some.inj h
          rfl
      · obtain ⟨c, -, h⟩ := Option.bind_eq_some_iff.mp h
        obtain ⟨c', -, h⟩ := Option.bind_eq_some_iff.mp h
        obtain ⟨d', -, rfl⟩ := Option.map_eq_some_iff.mp h
        dsimp only
        split
        · next hdata =>
            have hlen : 0 < r.len - r.doff := by simpa [Recv.segment] using hdata.2
            exact decide_eq_true (hroom (by omega))
        · rfl

theorem Whole.handleTcp_exists (h : Whole rb Cooperative s) (hexact : Exact s.tcbs)
    (hspace : ∀ a c, s.conn a = some c → c.live = true → InSpace c) {now : Timeval}
    (hfresh : freshSocket s.udp.opened res = true) (hroom : r.doff < r.len → r.len < r.cap) :
    ∃ s', s.handleTcp rb iface r now res = some s' := by
  suffices hd : ∃ d, s.daemon.handleTcp rb iface r now res = some d by
    obtain ⟨d, hd⟩ := hd
    refine ⟨s.resume (s.target r) d.daemon, ?_⟩
    rw [System.handleTcp, if_pos hfresh, hd, Option.bind_some,
      if_pos (terminator_of_handleTcp hroom hd)]
  obtain ⟨found, hfind⟩ := h.find_exists hexact r.arrival
  have hfind' : r.arrival.find s.daemon.tcbs.root = some found := hfind
  rw [Daemon.handleTcp]
  dsimp only
  rw [hfind', Option.bind_some]
  cases found with
  | none => exact ⟨_, rfl⟩
  | some t =>
      dsimp only
      split
      · split
        · next hflags =>
            obtain ⟨c, hsyn⟩ := handleSyn_exists res hflags
            rw [hsyn, Option.bind_some]
            refine Option.isSome_iff_exists.mp ?_
            rw [Option.isSome_map]
            exact put_isSome (h.detached hexact)
        · exact ⟨_, rfl⟩
      · next hlisten =>
          have ht : t ∈ s.tcbs.live := h.formed.root.live t (r.arrival.find_mem hfind)
          obtain ⟨x, hx, hlive⟩ := h.conn t ht (Bool.eq_false_iff.mpr hlisten)
          have hget : s.get t.addr = some { x with ev := s.udp.ev } := by
            rw [System.get, hx]
            rfl
          have hget' : s.daemon.get t = some { x with ev := s.udp.ev } := hget
          obtain ⟨c', hc'⟩ := (h.ready hget hlive (hspace _ x hx hlive)).packet r.segment now
          rw [hget', Option.bind_some, hc', Option.bind_some]
          refine Option.isSome_iff_exists.mp ?_
          rw [Option.isSome_map]
          exact put_isSome (h.detached hexact)

theorem Whole.onUdp_exists (h : Whole rb ok s) {um : ℕ} {fd : ℤ} {now now' : Timeval}
    (hum : um ∉ s.udp.allocated) (hfd : s.udp.opened fd = false) :
    ∃ s', s.onUdp (.packet r um fd now now') = some s' := by
  obtain ⟨l, hmaps⟩ := h.maps
  obtain ⟨udp, -, hudp, -⟩ := hmaps.handleUdp hum hfd r now now'
  rw [System.onUdp, udpMemStep, if_pos ⟨hum, hfd⟩, hudp]
  exact ⟨_, rfl⟩

theorem handleIcmp_exists (hlen : r.d 40 = 128 → 48 ≤ r.len) :
    ∃ s', s.handleIcmp iface r = some s' := by
  rw [System.handleIcmp, if_neg]
  · exact ⟨_, rfl⟩
  · rintro ⟨hecho, hbad⟩
    rw [(icmpPingReply_inside (hlen hecho)).ok] at hbad
    cases hbad

/-- Every packet of these is handled. -/
theorem Whole.handlePacket_exists (h : Whole rb Cooperative s) (hexact : Exact s.tcbs)
    (hspace : ∀ a c, s.conn a = some c → c.live = true → InSpace c) {um : ℕ} {fd : ℤ}
    {now now' : Timeval} (hum : um ∉ s.udp.allocated) (hfd : s.udp.opened fd = false)
    (hfresh : freshSocket s.udp.opened res = true) (hfits : r.Answerable) :
    ∃ s', s.handlePacket rb iface r um fd now now' res = some s' := by
  obtain ⟨hknown, hecho, hroom⟩ := hfits
  rw [System.handlePacket.eq_def]
  split
  · next hnext => exact handleIcmp_exists (hecho hnext)
  · next hnext => exact h.handleTcp_exists hexact hspace hfresh (hroom hnext)
  · exact h.onUdp_exists hum hfd
  · exact ⟨_, rfl⟩
  · next hicmp htcp hudp hnone =>
      rcases hknown with hnext | hnext | hnext | hnext
      · exact absurd hnext hnone
      · exact absurd hnext htcp
      · exact absurd hnext hudp
      · exact absurd hnext hicmp

/-- The event of a map is found by its address. -/
theorem eventMap_of_mem {l : List Event} {e : Event} {um : ℕ} (hnodup : (l.map Event.addr).Nodup)
    (he : e ∈ l) (hdata : e.data = .udpMap um) : eventMap l e.addr e.func = some um := by
  rw [eventMap]
  cases hfind : l.find? fun x => x.addr = e.addr ∧ x.func = e.func with
  | none =>
      have hself : decide (e.addr = e.addr ∧ e.func = e.func) = true := decide_eq_true ⟨rfl, rfl⟩
      exact absurd hself (List.find?_eq_none.mp hfind e he)
  | some x =>
      have hx := List.mem_of_find?_eq_some hfind
      obtain ⟨haddr, -⟩ : x.addr = e.addr ∧ x.func = e.func := by
        simpa using List.find?_some hfind
      rw [List.inj_on_of_nodup_map hnodup hx he haddr, Option.bind_some, hdata]

/-! ## Progress -/

/-- What never gets stuck: the invariant, the table with all its blocks, and sequence numbers that
have not wrapped. -/
structure Running (rb : Table.Rebalance) (s : System) : Prop where
  whole : Whole rb Cooperative s
  exact : Exact s.tcbs
  space : ∀ a c, s.conn a = some c → c.live = true → InSpace c

namespace Running

variable {e : Event}

theorem ready (h : Running rb s) {c : Conn} (hc : s.conn a = some c) (hlive : c.live = true) :
    s.get a = some { c with ev := s.udp.ev } ∧ Ready { c with ev := s.udp.ev } ∧ c.self = a := by
  have hget : s.get a = some { c with ev := s.udp.ev } := by
    rw [System.get, hc]
    rfl
  exact ⟨hget, h.whole.ready hget hlive (h.space a c hc hlive), (h.whole.self a c hc).1⟩

theorem time (h : Running rb s) (he : e ∈ s.udp.ev.timeEventList) :
    ∃ s', s.step rb iface (.time e.addr) = some s' := by
  have hnodup : (s.udp.ev.timeEventList.map Event.addr).Nodup := (h.whole.addressed .time).1
  have hb := h.whole.backed h.space .time e he
  rw [System.Backed] at hb
  rw [System.step, registered_of_mem hnodup he, Option.bind_some]
  cases hdata : e.data with
  | tcb a =>
      rw [hdata] at hb
      obtain ⟨c, hc, hlive, ⟨-, -, hfunc⟩ | ⟨hk, -⟩⟩ := hb
      · obtain ⟨hget, hr, rfl⟩ := h.ready hc hlive
        obtain ⟨c', hnext⟩ := hr.timeEvent he hdata hfunc
        exact h.whole.onConn_exists h.exact hget hlive hnext
      · cases hk
  | tcpMap a =>
      rw [hdata] at hb
      cases hb.1
  | udpMap um =>
      rw [hdata] at hb
      obtain ⟨l, -, -, ⟨hk, -⟩ | ⟨-, -, hfunc⟩⟩ := hb
      · cases hk
      · have hmap := eventMap_of_mem hnodup he hdata
        rw [hfunc] at hmap
        dsimp only
        rw [System.onUdp, udpMemStep, hmap]
        exact ⟨_, rfl⟩
  | iface =>
      rw [hdata] at hb
      cases hb.1

theorem fd (h : Running rb s) (he : e ∈ s.udp.ev.fdEventList) {io : SystemIo}
    (hio : s.Reports e io) (hfits : io.Fits) :
    ∃ s', s.step rb iface (.fd e.addr io) = some s' := by
  have hnodup : (s.udp.ev.fdEventList.map Event.addr).Nodup := (h.whole.addressed .fd).1
  have hb := h.whole.backed h.space .fd e he
  rw [System.Backed] at hb
  rw [System.step, registered_of_mem hnodup he, Option.bind_some, System.runFd.eq_def]
  cases io with
  | frame r um fd now now' res =>
      obtain ⟨hdata, hum, hfd, hfresh⟩ := hio
      dsimp only
      rw [if_pos hdata]
      exact h.whole.handlePacket_exists h.exact h.space hum hfd hfresh hfits
  | tcp io =>
      obtain ⟨a, x, hdata, hx, hreports⟩ := hio
      rw [hdata] at hb ⊢
      obtain ⟨-, c, m, hc, hlive, hm, -⟩ := hb
      obtain ⟨hget, hr, rfl⟩ := h.ready hc hlive
      obtain rfl := Option.some.inj (hget.symm.trans hx)
      have hmap : c.map.isSome = true := by
        rw [hm]
        rfl
      obtain ⟨c', hnext⟩ := hr.fdEvent he hdata hmap hreports
      exact h.whole.onConn_exists h.exact hget hlive hnext
  | datagram data src sport pfx now =>
      obtain ⟨um, hdata⟩ := hio
      rw [hdata] at hb ⊢
      obtain ⟨l, -, -, ⟨-, -, -, hfunc⟩ | ⟨hk, -⟩⟩ := hb
      · have hmap := eventMap_of_mem hnodup he hdata
        rw [hfunc] at hmap
        dsimp only
        rw [System.onUdp, udpMemStep, hmap]
        exact ⟨_, rfl⟩
      · cases hk

theorem always (h : Running rb s) (he : e ∈ s.udp.ev.alwaysEventList) (now : Timeval) :
    ∃ s', s.step rb iface (.always e.addr now) = some s' := by
  have hnodup : (s.udp.ev.alwaysEventList.map Event.addr).Nodup := (h.whole.addressed .always).1
  have hb := h.whole.backed h.space .always e he
  rw [System.Backed] at hb
  rw [System.step, registered_of_mem hnodup he, Option.bind_some]
  cases hdata : e.data with
  | tcb a =>
      rw [hdata] at hb
      obtain ⟨c, hc, hlive, ⟨hk, -⟩ | ⟨-, -, hfunc⟩⟩ := hb
      · cases hk
      · obtain ⟨hget, hr, rfl⟩ := h.ready hc hlive
        obtain ⟨c', hnext⟩ := hr.alwaysEvent he hdata hfunc now
        exact h.whole.onConn_exists h.exact hget hlive hnext
  | tcpMap a =>
      rw [hdata] at hb
      cases hb.1
  | udpMap um =>
      rw [hdata] at hb
      obtain ⟨l, -, -, ⟨hk, -⟩ | ⟨hk, -⟩⟩ := hb <;> cases hk
  | iface =>
      rw [hdata] at hb
      cases hb.1

end Running

end Wire

end Ptrtd
