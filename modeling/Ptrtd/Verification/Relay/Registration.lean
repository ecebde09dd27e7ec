import Ptrtd.Library.Registry
import Ptrtd.Verification.Session.Events
import Mathlib.Logic.Relation

/-! # Registered socket events

A map stores the addresses of its read and its write event, and `fd_event_list` holds the
events. The functions of the daemon change both together; only a socket callback clears
its own address and leaves it to `event_loop` to unlink the event that ran. -/

namespace Ptrtd

open Registry

variable {exact : Prop} {a c c' : Conn} {s : Segment} {now : Timeval} {addr : ℕ}

/-! ## What a function does to the socket events -/

/-- The callbacks of a write event: a pending `connect`, or data for the socket. -/
def WriteCallback (c : Conn) (f : Callback) : Prop :=
  f = .handleFdDidConnect ∨ f = .handleFdCanWrite ∧ 0 < c.tcb.inbuf.used

/-- A change of the registered socket events, or of something else. -/
inductive FdStep (c : Conn) : Conn → Prop where
  | same {c' : Conn} : c'.self = c.self → c'.map = c.map →
      c'.ev.fdEventList = c.ev.fdEventList → c.ev.next ≤ c'.ev.next →
      c.tcb.inbuf.used ≤ c'.tcb.inbuf.used → FdStep c c'
  | read {m : TcpMap} : c.map = some m → m.eFdRead = none →
      FdStep c
        { c with
          ev := addFdEvent c.ev m.fd false .handleFdCanRead (.tcpMap c.self)
          map := some { m with eFdRead := some c.ev.next } }
  | write {m : TcpMap} {f : Callback} : c.map = some m → m.eFdWrite = none → WriteCallback c f →
      FdStep c
        { c with
          ev := addFdEvent c.ev m.fd true f (.tcpMap c.self)
          map := some { m with eFdWrite := some c.ev.next } }
  | killed {m : TcpMap} : c.map = some m →
      FdStep c
        { c with
          map := none
          ev := removeFd? (removeFd? c.ev m.eFdWrite) m.eFdRead
          trace := { c.trace with closed := c.trace.closed || decide ((0 : ℤ) ≤ m.fd) } }

/-- Several such changes in a row. -/
abbrev FdSteps : Conn → Conn → Prop := Relation.ReflTransGen FdStep

/-- The connection after `event_loop` has unlinked a socket event. -/
def unlinkFd (addr : ℕ) (c : Conn) : Conn := { c with ev := removeFdEvent c.ev addr }

theorem removeFdEvent_next (ev : EventLists) (addr : ℕ) :
    (removeFdEvent ev addr).next = ev.next := rfl

theorem removeFd?_next (ev : EventLists) (e : Option ℕ) : (removeFd? ev e).next = ev.next := by
  cases e <;> rfl

theorem delEvent_comm (a b : ℕ) (l : List Event) :
    delEvent a (delEvent b l) = delEvent b (delEvent a l) := by
  simp only [delEvent, List.filter_filter, Bool.and_comm]

theorem removeFd?_comm (ev : EventLists) (e : Option ℕ) :
    removeFd? (removeFdEvent ev addr) e = removeFdEvent (removeFd? ev e) addr := by
  cases e with
  | none => rfl
  | some b => simp only [removeFd?, Option.elim, removeFdEvent, delEvent_comm b]

/-- A new event has another address than one that exists. -/
theorem addFdEvent_unlink {ev : EventLists} {fd : ℤ} {write : Bool} {f : Callback} {d : DataRef}
    (h : addr < ev.next) : addFdEvent (removeFdEvent ev addr) fd write f d =
      removeFdEvent (addFdEvent ev fd write f d) addr := by
  have hne : ev.next ≠ addr := Nat.ne_of_gt h
  simp [addFdEvent, removeFdEvent, delEvent, hne]

/-- An event that is unlinked later could have been unlinked before. -/
theorem FdStep.unlink (h : FdStep c c') (haddr : addr < c.ev.next) :
    FdStep (unlinkFd addr c) (unlinkFd addr c') ∧ addr < c'.ev.next := by
  cases h with
  | same hself hmap hlist hnext hused =>
      have hlist' : delEvent addr c'.ev.fdEventList = delEvent addr c.ev.fdEventList := by
        rw [hlist]
      exact ⟨.same hself hmap hlist' hnext hused, haddr.trans_le hnext⟩
  | @read m hm hnone =>
      have hstep := FdStep.read (c := unlinkFd addr c) hm hnone
      refine ⟨?_, haddr.trans (Nat.lt_succ_self _)⟩
      simpa only [unlinkFd, addFdEvent_unlink haddr, removeFdEvent_next] using hstep
  | @write m f hm hnone hf =>
      have hstep := FdStep.write (c := unlinkFd addr c) hm hnone hf
      refine ⟨?_, haddr.trans (Nat.lt_succ_self _)⟩
      simpa only [unlinkFd, addFdEvent_unlink haddr, removeFdEvent_next] using hstep
  | @killed m hm =>
      have hstep := FdStep.killed (c := unlinkFd addr c) hm
      refine ⟨?_, ?_⟩
      · simpa only [unlinkFd, removeFd?_comm] using hstep
      · rw [removeFd?_next, removeFd?_next]
        exact haddr

namespace FdSteps

theorem unlink (h : FdSteps c c') (haddr : addr < c.ev.next) :
    FdSteps (unlinkFd addr c) (unlinkFd addr c') := by
  have hboth : FdSteps (unlinkFd addr c) (unlinkFd addr c') ∧ addr < c'.ev.next := by
    induction h with
    | refl => exact ⟨.refl, haddr⟩
    | tail _ hstep ih =>
        obtain ⟨hnext, hlt⟩ := hstep.unlink ih.2
        exact ⟨ih.1.tail hnext, hlt⟩
  exact hboth.1

theorem same (hself : c'.self = c.self) (hmap : c'.map = c.map)
    (hlist : c'.ev.fdEventList = c.ev.fdEventList) (hnext : c.ev.next ≤ c'.ev.next)
    (hused : c.tcb.inbuf.used ≤ c'.tcb.inbuf.used) : FdSteps c c' :=
  .single (.same hself hmap hlist hnext hused)

/-! ## The functions -/

/-- Changes elsewhere, and the schedule of the write event. -/
theorem of_mark (hself : a.self = c.self) (hmap : a.map = c.map) (hev : a.ev = c.ev)
    (hused : c.tcb.inbuf.used ≤ a.tcb.inbuf.used) : FdSteps c (markForIfWrite a) := by
  rw [markForIfWrite]
  split
  · exact same hself hmap (by rw [hev]) (by rw [hev]) hused
  · refine same hself hmap ?_ ?_ hused
    · simp only [addAlwaysEvent, hev]
    · simp only [addAlwaysEvent, hev]
      exact Nat.le_succ _

theorem tcpAccept (c : Conn) : FdSteps c (tcpAccept c) := of_mark rfl rfl rfl le_rfl

theorem cancel (ev : EventLists) (p q : Option ℕ) :
    (removeTime? (removeAlways? ev p) q).fdEventList = ev.fdEventList ∧
      (removeTime? (removeAlways? ev p) q).next = ev.next := by
  cases p <;> cases q <;> exact ⟨rfl, rfl⟩

theorem tcpClose (c : Conn) (hard : Bool) : FdSteps c (tcpClose c hard) := by
  rw [Ptrtd.tcpClose]
  split
  · obtain ⟨hlist, hnext⟩ := cancel c.ev c.tcb.eTcbSend c.tcb.eTimeout
    exact same rfl rfl hlist (le_of_eq hnext.symm) le_rfl
  · exact of_mark rfl rfl rfl le_rfl

theorem killMap (h : killMap c = some c') : FdSteps c c' := by
  obtain ⟨m, hm, rfl⟩ := Option.map_eq_some_iff.mp h
  exact .single (.killed hm)

theorem closeBoth (h : closeBoth c = some c') : FdSteps c c' := (tcpClose c false).trans (killMap h)

theorem outputSpace {space : ℤ} (h : outputSpace c space = some c') : FdSteps c c' := by
  obtain ⟨m, hm, h⟩ := Option.map_eq_some_iff.mp h
  split at h
  · next hnone =>
      subst h
      exact .single (.read hm (by simpa using hnone.2))
  · subst h
    exact .refl

theorem canRead (hused : 0 < c.tcb.inbuf.used) (h : canRead c = some c') : FdSteps c c' := by
  obtain ⟨m, hm, h⟩ := Option.map_eq_some_iff.mp h
  split at h
  · next hnone =>
      subst h
      exact .single (.write hm (by simpa using hnone) (.inr ⟨rfl, hused⟩))
  · subst h
    exact .refl

theorem cbOutputBufferSpace {space : ℤ} (h : cbOutputBufferSpace c space = some c') :
    FdSteps c c' := by
  rw [Ptrtd.cbOutputBufferSpace] at h
  split at h
  · cases h
  · exact outputSpace h
  · cases h
    exact .refl

theorem cbDataAvailable (hused : 0 < c.tcb.inbuf.used) (h : cbDataAvailable c = some c') :
    FdSteps c c' := by
  rw [Ptrtd.cbDataAvailable] at h
  split at h
  · cases h
  · exact canRead hused h
  · cases h
    exact .refl

theorem cbClosing (h : cbClosing c = some c') : FdSteps c c' := by
  rcases cbClosing_cases h with ⟨rfl, -⟩ | ⟨-, hkill⟩
  · exact .refl
  · exact killMap hkill

theorem ackTimer (c : Conn) (ack : Uint) (now : Timeval) : FdSteps c (ackTimer c ack now) := by
  rw [Ptrtd.ackTimer]
  split
  · exact .refl
  · dsimp only
    split
    · split
      · exact same rfl rfl rfl (Nat.le_succ _) le_rfl
      · exact same rfl rfl rfl le_rfl le_rfl
    · exact .refl

theorem handleNewAck {ack : Uint} (h : handleNewAck c ack now = some c') : FdSteps c c' := by
  have hack : (ackUna c.tcb ack now).inbuf = c.tcb.inbuf := by
    rw [ackUna]
    split <;> simp only [sampleRtt]
  have hc : FdSteps c { c with tcb := ackUna c.tcb ack now } :=
    same rfl rfl rfl le_rfl (by rw [hack])
  rw [Ptrtd.handleNewAck] at h
  dsimp only at h
  split at h
  · obtain ⟨b, hb, rfl⟩ := Option.map_eq_some_iff.mp h
    have hbuf : FdSteps { c with tcb := ackUna c.tcb ack now } b := by
      refine Relation.ReflTransGen.trans ?_ (cbOutputBufferSpace hb)
      exact same rfl rfl rfl le_rfl le_rfl
    exact (hc.trans hbuf).trans (ackTimer b ack now)
  iterate 3
    · cases h
      exact hc.trans (ackTimer _ ack now)
  · cases h
    exact hc

theorem enterTimeWait (c : Conn) (now : Timeval) : FdSteps c (enterTimeWait c now) :=
  same rfl rfl rfl (Nat.le_succ _) le_rfl

theorem handleAllAcked {f : Flow} (h : handleAllAcked c now = some f) : FdSteps c f.conn := by
  rw [Ptrtd.handleAllAcked] at h
  split at h
  · obtain ⟨b, hb, rfl⟩ := Option.map_eq_some_iff.mp h
    have hopen : FdSteps c { c with tcb := { c.tcb with state := .established } } :=
      same rfl rfl rfl le_rfl le_rfl
    exact hopen.trans (cbOutputBufferSpace hb)
  · cases h
    obtain ⟨hlist, hnext⟩ := cancel c.ev c.tcb.eTcbSend c.tcb.eTimeout
    exact same rfl rfl hlist (le_of_eq hnext.symm) le_rfl
  · split at h
    · cases h
      exact same rfl rfl rfl le_rfl le_rfl
    · cases h
      exact .refl
  · split at h
    · cases h
      exact enterTimeWait c now
    · cases h
      exact .refl
  · cases h
    exact .refl

theorem handleAck {f : Flow} (h : handleAck c s now = some f) : FdSteps c f.conn := by
  rcases handleAck_cases h with ⟨-, rfl⟩ | ⟨-, b, hnew, hall⟩
  · exact .refl
  · have hb : FdSteps c b := by
      rcases hnew with ⟨-, hnew⟩ | ⟨-, rfl⟩
      · exact handleNewAck hnew
      · exact .refl
    rcases hall with ⟨-, hall⟩ | ⟨-, rfl⟩
    · exact hb.trans (handleAllAcked hall)
    · exact hb

theorem handleOld (c : Conn) : FdSteps c (handleOld c) := by
  rw [Ptrtd.handleOld]
  split
  · exact .refl
  · exact of_mark rfl rfl rfl le_rfl

theorem handleWindow (c : Conn) (s : Segment) : FdSteps c (handleWindow c s) := by
  rw [Ptrtd.handleWindow]
  dsimp only
  split
  · split
    · exact of_mark rfl rfl rfl le_rfl
    · exact same rfl rfl rfl le_rfl le_rfl
  · exact same rfl rfl rfl le_rfl le_rfl

/-- After a segment with data there is data for the socket, even if nothing fits. -/
theorem used_pos_of_write {r : Ringbuf} {n : ℕ} (h : WellFormed c) (hlen : 0 < s.data.length)
    (hw : rbWrite c.tcb.inbuf s.data = some (r, n)) :
    c.tcb.inbuf.used ≤ r.used ∧ 0 < r.used := by
  obtain ⟨hspec, -⟩ := Buffer.from_write h.inbuf hw
  have hused := hspec.used
  have hn := hspec.stored
  have hsize := h.inSize
  omega

theorem recvPayload (h : WellFormed c) (hrecv : recvPayload c s = some c') : FdSteps c c' := by
  rw [Ptrtd.recvPayload] at hrecv
  split at hrecv
  · next hlen =>
      obtain ⟨b, hb⟩ : ∃ b, b = Ptrtd.markForIfWrite
          { c with tcb := { c.tcb with rcvNxt := c.tcb.rcvNxt + BitVec.ofNat 32 s.data.length } } :=
        ⟨_, rfl⟩
      have hmark : FdSteps c b := by
        rw [hb]
        exact of_mark rfl rfl rfl le_rfl
      have hinbuf : b.tcb.inbuf = c.tcb.inbuf := by
        obtain ⟨_, _, _, -, heq⟩ := markForIfWrite_eq
          { c with tcb := { c.tcb with rcvNxt := c.tcb.rcvNxt + BitVec.ofNat 32 s.data.length } }
        rw [hb, heq]
      simp only [← hb] at hrecv
      split at hrecv
      · obtain ⟨⟨r, k⟩, hw, hrecv⟩ := Option.bind_eq_some_iff.mp hrecv
        rw [hinbuf] at hw
        obtain ⟨hle, hpos⟩ := used_pos_of_write h hlen hw
        refine (hmark.trans ?_).trans (cbDataAvailable ?_ hrecv)
        · exact same rfl rfl rfl le_rfl (hinbuf ▸ hle)
        · exact hpos
      · cases hrecv
        exact hmark
  · cases hrecv
    exact .refl

theorem recvFin (c : Conn) (s : Segment) : FdSteps c (recvFin c s) := by
  rw [Ptrtd.recvFin]
  split
  · exact of_mark rfl rfl rfl le_rfl
  · exact .refl

theorem tcpRecvData {fin : Bool} (h : WellFormed c) (hrecv : tcpRecvData c s = some (c', fin)) :
    FdSteps c c' := by
  rw [Ptrtd.tcpRecvData, Option.map_eq_some_iff] at hrecv
  obtain ⟨b, hb, hrecv⟩ := hrecv
  obtain ⟨rfl, rfl⟩ := Prod.mk.inj hrecv
  exact (recvPayload h hb).trans (recvFin b s)

theorem tcpRemoteClose (h : tcpRemoteClose c = some c') : FdSteps c c' := by
  rw [Ptrtd.tcpRemoteClose, Option.map_eq_some_iff] at h
  obtain ⟨b, hb, rfl⟩ := h
  exact (cbClosing hb).trans (tcpClose b false)

theorem handleData (h : WellFormed c) (hdata : handleData c s now = some c') : FdSteps c c' := by
  cases handleData_effect hdata with
  | ignored => exact .refl
  | data _ hrecv _ => exact tcpRecvData h hrecv
  | finWait2 _ hrecv => exact (tcpRecvData h hrecv).trans (enterTimeWait _ now)
  | finWait1 _ hrecv => exact (tcpRecvData h hrecv).trans (same rfl rfl rfl le_rfl le_rfl)
  | @closeWait b _ _ _ hrecv hclose =>
      have hstate : FdSteps b { b with tcb := { b.tcb with state := .closeWait } } :=
        same rfl rfl rfl le_rfl le_rfl
      exact ((tcpRecvData h hrecv).trans hstate).trans (tcpRemoteClose hclose)

theorem handleRst (h : handleRst c = some c') : FdSteps c c' := by
  obtain ⟨b, hb, rfl⟩ := Option.map_eq_some_iff.mp h
  obtain ⟨hlist, hnext⟩ := cancel b.ev b.tcb.eTcbSend b.tcb.eTimeout
  exact (cbClosing hb).trans (same rfl rfl hlist (le_of_eq hnext.symm) le_rfl)

theorem handleTcp (h : WellFormed c) (htcp : handleTcp c s now = some c') : FdSteps c c' := by
  rcases handleTcp_cases htcp with ⟨-, hrst⟩ | ⟨-, hdone⟩ | ⟨-, b, hnext, hrest⟩
  · exact handleRst hrst
  · exact handleAck hdone
  · have hb : FdSteps c b := handleAck hnext
    have hwf : WellFormed b := h.handleAck hnext
    rcases hrest with ⟨-, rfl⟩ | ⟨-, hdata⟩
    · exact hb.trans (handleOld b)
    · exact (hb.trans (handleWindow b s)).trans (handleData (hwf.handleWindow s) hdata)

theorem tcpTimeout (c : Conn) : FdSteps c (tcpTimeout c) := of_mark rfl rfl rfl le_rfl

theorem tcpRemove (c : Conn) : FdSteps c (tcpRemove c) := by
  obtain ⟨hlist, hnext⟩ := cancel c.ev c.tcb.eTcbSend c.tcb.eTimeout
  exact same rfl rfl hlist (le_of_eq hnext.symm) le_rfl

theorem tcpSend {d : List Uchar} (h : tcpSend c d = some c') : FdSteps c c' := by
  rw [Ptrtd.tcpSend, Option.map_eq_some_iff] at h
  obtain ⟨⟨r, n⟩, -, h⟩ := h
  dsimp only at h
  split at h
  · subst h
    exact of_mark rfl rfl rfl le_rfl
  · subst h
    exact same rfl rfl rfl le_rfl le_rfl

theorem emitSegment (c : Conn) (data : List Uchar) (fin : Bool) (now : Timeval) :
    FdSteps c (emitSegment c data fin now) := by
  have hused : c.tcb.inbuf.used ≤ (Ptrtd.emitSegment c data fin now).tcb.inbuf.used := by
    obtain ⟨_, _, _, _, _, _, _, _, heq⟩ := emitSegment_eq c data fin now
    rw [heq]
  by_cases htimer : c.tcb.eTimeout.isNone = true ∧ data.length > 0
  · simp only [Ptrtd.emitSegment, if_pos htimer] at hused ⊢
    exact same rfl rfl rfl (Nat.le_succ _) hused
  · simp only [Ptrtd.emitSegment, if_neg htimer] at hused ⊢
    exact same rfl rfl rfl le_rfl hused

end FdSteps

/-- What `tcp_read` leaves alone. -/
theorem tcpRead_fd {len : ℤ} {d : List Uchar} (h : tcpRead c len = some (a, d)) :
    a.self = c.self ∧ a.map = c.map ∧ a.ev.fdEventList = c.ev.fdEventList ∧
      c.ev.next ≤ a.ev.next := by
  rw [tcpRead, Option.map_eq_some_iff] at h
  obtain ⟨b, -, h⟩ := h
  dsimp only at h
  split at h
  · obtain ⟨rfl, rfl⟩ := Prod.mk.inj h
    rw [markForIfWrite]
    split
    · exact ⟨rfl, rfl, rfl, le_rfl⟩
    · exact ⟨rfl, rfl, rfl, Nat.le_succ _⟩
  · obtain ⟨rfl, rfl⟩ := Prod.mk.inj h
    exact ⟨rfl, rfl, rfl, le_rfl⟩

/-! ## The registration -/

/-- `e_fd_read` of the map. -/
def Conn.readPtr (c : Conn) : Option ℕ := c.map.bind TcpMap.eFdRead

/-- `e_fd_write` of the map. -/
def Conn.writePtr (c : Conn) : Option ℕ := c.map.bind TcpMap.eFdWrite

/-- A socket event of the connection that waits for data to read. -/
def Conn.ownsRead (c : Conn) (e : Event) : Bool := c.owns e && e.func == .handleFdCanRead

/-- A socket event of the connection that waits to write. -/
def Conn.ownsWrite (c : Conn) (e : Event) : Bool := c.owns e && e.func != .handleFdCanRead

/-- What the socket events of a connection look like. -/
def SocketEvent (c : Conn) (e : Event) : Prop :=
  e.data = .tcpMap c.self ∧ ((e.func = .handleFdCanRead ∧ ∃ fd, e.kind = .fd fd false) ∨
    WriteCallback c e.func ∧ ∃ fd, e.kind = .fd fd true)

/-- The socket events of a connection are those its map points to. When the registration is
not `exact`, the pointer to the read event may have been left behind. -/
structure Registered (exact : Prop) (c : Conn) : Prop where
  shape : ∀ e ∈ c.ev.fdEventList, c.owns e = true → SocketEvent c e
  read : ∃ q, Points Event.addr c.ownsRead c.ev.fdEventList q ∧
    (q = c.readPtr ∨ ¬exact ∧ q = none)
  write : Points Event.addr c.ownsWrite c.ev.fdEventList c.writePtr
  bound : ∀ m, c.map = some m → ∀ a, m.eFdRead = some a ∨ m.eFdWrite = some a → a < c.ev.next
  apart : ∀ m, c.map = some m → ∀ a, m.eFdRead = some a → m.eFdWrite ≠ some a

theorem ownsRead_congr (h : c'.self = c.self) : c'.ownsRead = c.ownsRead := by
  funext e
  simp only [Conn.ownsRead, owns_congr h]

theorem ownsWrite_congr (h : c'.self = c.self) : c'.ownsWrite = c.ownsWrite := by
  funext e
  simp only [Conn.ownsWrite, owns_congr h]

theorem removeFd?_list (ev : EventLists) (p : Option ℕ) :
    (removeFd? ev p).fdEventList = ev.fdEventList.filter fun e => some e.addr ≠ p := by
  cases p with
  | none => simp [removeFd?]
  | some a => simp [removeFd?, removeFdEvent, delEvent]

theorem readPtr_eq {m : TcpMap} (h : c.map = some m) : c.readPtr = m.eFdRead := by
  rw [Conn.readPtr, h, Option.bind_some]

theorem writePtr_eq {m : TcpMap} (h : c.map = some m) : c.writePtr = m.eFdWrite := by
  rw [Conn.writePtr, h, Option.bind_some]

namespace Registered

/-- The events that look right before the data for the socket have been taken look right
afterwards, unless one of them waits for these data. -/
theorem socketEvent_mono {e : Event} (h : SocketEvent c e) (hself : c'.self = c.self)
    (hused : c.ownsWrite e = true → c.tcb.inbuf.used ≤ c'.tcb.inbuf.used) : SocketEvent c' e := by
  obtain ⟨hdata, hread | ⟨hf, hkind⟩⟩ := h
  · exact ⟨by rw [hself]; exact hdata, .inl hread⟩
  · refine ⟨by rw [hself]; exact hdata, .inr ⟨?_, hkind⟩⟩
    rcases hf with hf | ⟨hf, hpos⟩
    · exact .inl hf
    · have hmine : c.ownsWrite e = true := by
        simp [Conn.ownsWrite, owns_of_tcpMap hdata, hf]
      exact .inr ⟨hf, hpos.trans_le (hused hmine)⟩

/-- Nothing of the connection's socket events changes; the data for the socket may only
shrink if no event waits for them. -/
theorem same (h : Registered exact c) (hself : c'.self = c.self) (hmap : c'.map = c.map)
    (hlist : c'.ev.fdEventList.filter c.owns = c.ev.fdEventList.filter c.owns)
    (hnext : c.ev.next ≤ c'.ev.next)
    (hused : c.writePtr = none ∨ c.tcb.inbuf.used ≤ c'.tcb.inbuf.used) : Registered exact c' := by
  have hold : ∀ e ∈ c'.ev.fdEventList, c.owns e = true → e ∈ c.ev.fdEventList := by
    intro e he hown
    have hmem : e ∈ c.ev.fdEventList.filter c.owns := hlist ▸ List.mem_filter.mpr ⟨he, hown⟩
    exact (List.mem_filter.mp hmem).1
  have hsub : ∀ q : Event → Bool, (c'.ev.fdEventList.filter fun e => c.owns e && q e) =
      c.ev.fdEventList.filter fun e => c.owns e && q e := by
    intro q
    simp only [Bool.and_comm (c.owns _), ← List.filter_filter, hlist]
  have hread : c'.readPtr = c.readPtr := by rw [Conn.readPtr, hmap, Conn.readPtr]
  have hwrite : c'.writePtr = c.writePtr := by rw [Conn.writePtr, hmap, Conn.writePtr]
  refine ⟨fun e he hown => ?_, ?_, ?_, ?_, ?_⟩
  · rw [owns_congr hself] at hown
    have hmem := hold e he hown
    refine socketEvent_mono (h.shape e hmem hown) hself fun hmine => ?_
    rcases hused with hnone | hle
    · have := h.write.eq_some hmem hmine
      rw [hnone] at this
      cases this
    · exact hle
  · obtain ⟨q, hq, hcase⟩ := h.read
    rw [ownsRead_congr hself, hread]
    exact ⟨q, hq.congr (hsub _), hcase⟩
  · rw [ownsWrite_congr hself, hwrite]
    exact h.write.congr (hsub _)
  · intro m hm a ha
    exact (h.bound m (hmap ▸ hm) a ha).trans_le hnext
  · intro m hm a ha
    exact h.apart m (hmap ▸ hm) a ha

/-- A map that is killed takes its events along. -/
theorem killed {m : TcpMap} (h : Registered exact c) (hm : c.map = some m)
    (hself : c'.self = c.self) (hmap : c'.map = none)
    (hlist : c'.ev.fdEventList = (removeFd? (removeFd? c.ev m.eFdWrite) m.eFdRead).fdEventList) :
    Registered exact c' := by
  rw [removeFd?_list, removeFd?_list] at hlist
  have hread' : c'.readPtr = none := by rw [Conn.readPtr, hmap, Option.bind_none]
  have hwrite' : c'.writePtr = none := by rw [Conn.writePtr, hmap, Option.bind_none]
  have hread : Points Event.addr c.ownsRead c'.ev.fdEventList none := by
    rw [hlist]
    obtain ⟨q, hq, hcase⟩ := h.read
    rw [readPtr_eq hm] at hcase
    rcases hcase with rfl | ⟨-, rfl⟩
    · exact (hq.keep fun a hw hr => h.apart m hm a hr hw).clear
    · exact (hq.keep fun _ _ => nofun).keep fun _ _ => nofun
  have hwrite : Points Event.addr c.ownsWrite c'.ev.fdEventList none := by
    have hp := h.write
    rw [writePtr_eq hm] at hp
    rw [hlist]
    exact hp.clear.keep fun _ _ => nofun
  refine ⟨fun e he hown => ?_, ?_, ?_, fun m hm' => ?_, fun m hm' => ?_⟩
  · rw [owns_congr hself] at hown
    have hmem : e ∈ c.ev.fdEventList := by
      rw [hlist] at he
      exact (List.mem_filter.mp (List.mem_filter.mp he).1).1
    refine socketEvent_mono (h.shape e hmem hown) hself fun hmine => ?_
    cases hwrite.eq_some he hmine
  · rw [ownsRead_congr hself, hread']
    exact ⟨none, hread, .inl rfl⟩
  · rw [ownsWrite_congr hself, hwrite']
    exact hwrite
  · rw [hmap] at hm'
    cases hm'
  · rw [hmap] at hm'
    cases hm'

/-- The application wants to know when there is something to read. -/
theorem addRead {m : TcpMap} (h : Registered exact c) (hm : c.map = some m)
    (hnone : m.eFdRead = none) :
    Registered exact
      { c with
        ev := addFdEvent c.ev m.fd false .handleFdCanRead (.tcpMap c.self)
        map := some { m with eFdRead := some c.ev.next } } := by
  have hmine : c.ownsRead ⟨c.ev.next, .handleFdCanRead, .tcpMap c.self, .fd m.fd false⟩ = true := by
    simp [Conn.ownsRead, Conn.owns]
  have hother : c.ownsWrite ⟨c.ev.next, .handleFdCanRead, .tcpMap c.self, .fd m.fd false⟩ =
        false := by
    simp [Conn.ownsWrite]
  refine ⟨fun e he hown => ?_, ⟨some c.ev.next, ?_, .inl rfl⟩, ?_, ?_, ?_⟩
  · rcases List.mem_cons.mp he with rfl | hold
    · exact ⟨rfl, .inl ⟨rfl, m.fd, rfl⟩⟩
    · exact h.shape e hold hown
  · obtain ⟨q, hq, hcase⟩ := h.read
    have hqnone : q = none := by
      rw [readPtr_eq hm, hnone] at hcase
      rcases hcase with hq | ⟨-, hq⟩ <;> exact hq
    subst hqnone
    exact hq.add hmine (List.Perm.refl _)
  · have hp := h.write
    rw [writePtr_eq hm] at hp
    exact hp.add_other hother
  · rintro _ ⟨⟩ a (ha | ha)
    · cases ha
      exact Nat.lt_succ_self _
    · exact Nat.lt_succ_of_lt (h.bound m hm a (.inr ha))
  · rintro _ ⟨⟩ a ha hw
    cases ha
    exact absurd (h.bound m hm _ (.inr hw)) (Nat.lt_irrefl _)

/-- A write event is registered: for a pending `connect`, or for data. -/
theorem addWrite {m : TcpMap} {f : Callback} (h : Registered exact c) (hm : c.map = some m)
    (hnone : m.eFdWrite = none) (hf : WriteCallback c f) :
    Registered exact
      { c with
        ev := addFdEvent c.ev m.fd true f (.tcpMap c.self)
        map := some { m with eFdWrite := some c.ev.next } } := by
  have hne : f ≠ .handleFdCanRead := by
    rcases hf with rfl | ⟨rfl, -⟩ <;> nofun
  have hmine : c.ownsWrite ⟨c.ev.next, f, .tcpMap c.self, .fd m.fd true⟩ = true := by
    simp [Conn.ownsWrite, Conn.owns, hne]
  have hother : c.ownsRead ⟨c.ev.next, f, .tcpMap c.self, .fd m.fd true⟩ = false := by
    simp [Conn.ownsRead, hne]
  refine ⟨fun e he hown => ?_, ?_, ?_, ?_, ?_⟩
  · rcases List.mem_cons.mp he with rfl | hold
    · exact ⟨rfl, .inr ⟨hf, m.fd, rfl⟩⟩
    · exact h.shape e hold hown
  · obtain ⟨q, hq, hcase⟩ := h.read
    rw [readPtr_eq hm] at hcase
    exact ⟨q, hq.add_other hother, hcase⟩
  · have hp := h.write
    rw [writePtr_eq hm, hnone] at hp
    exact hp.add hmine (List.Perm.refl _)
  · rintro _ ⟨⟩ a (ha | ha)
    · exact Nat.lt_succ_of_lt (h.bound m hm a (.inl ha))
    · cases ha
      exact Nat.lt_succ_self _
  · rintro _ ⟨⟩ a ha hw
    cases hw
    exact absurd (h.bound m hm _ (.inl ha)) (Nat.lt_irrefl _)

theorem step (h : Registered exact c) (hstep : FdStep c c') : Registered exact c' := by
  cases hstep with
  | same hself hmap hlist hnext hused => exact h.same hself hmap (by rw [hlist]) hnext (.inr hused)
  | read hm hnone => exact h.addRead hm hnone
  | write hm hnone hf => exact h.addWrite hm hnone hf
  | killed hm => exact h.killed hm rfl rfl rfl

theorem steps (h : Registered exact c) (hsteps : FdSteps c c') : Registered exact c' := by
  induction hsteps with
  | refl => exact h
  | tail _ hstep ih => exact ih.step hstep

/-! ## Callbacks -/

/-- The read event has run and is unlinked, and the map has forgotten it or may keep it. -/
theorem readDone {m : TcpMap} {p : Option ℕ} (h : Registered exact c) (hm : c.map = some m)
    (hptr : m.eFdRead = some addr) (hp : p = none ∨ ¬exact ∧ p = some addr) :
    Registered exact (unlinkFd addr { c with map := some { m with eFdRead := p } }) := by
  have hold : ∀ e ∈ delEvent addr c.ev.fdEventList, e ∈ c.ev.fdEventList :=
    fun e he => (mem_delEvent.mp he).1
  have hgone : Points Event.addr c.ownsRead (delEvent addr c.ev.fdEventList) none := by
    obtain ⟨q, hq, hcase⟩ := h.read
    rw [readPtr_eq hm, hptr] at hcase
    rcases hcase with rfl | ⟨-, rfl⟩
    · exact hq.remove
    · exact hq.remove_other nofun
  refine ⟨fun e he hown => h.shape e (hold e he) hown, ⟨none, hgone, ?_⟩, ?_, ?_, ?_⟩
  · rcases hp with rfl | ⟨hexact, -⟩
    · exact .inl rfl
    · exact .inr ⟨hexact, rfl⟩
  · have hw := h.write
    rw [writePtr_eq hm] at hw
    exact hw.remove_other fun hsame => h.apart m hm addr hptr hsame
  · rintro _ ⟨⟩ a (ha | ha)
    · rcases hp with rfl | ⟨-, rfl⟩
      · cases ha
      · exact h.bound m hm a (.inl (hptr.trans ha))
    · exact h.bound m hm a (.inr ha)
  · rintro _ ⟨⟩ a ha
    rcases hp with rfl | ⟨-, rfl⟩
    · cases ha
    · exact h.apart m hm a (hptr.trans ha)

/-- The write event has run, is unlinked and forgotten. The data it waited for are gone. -/
theorem writeDone {m : TcpMap} (h : Registered exact c) (hm : c.map = some m)
    (hptr : m.eFdWrite = some addr) (hself : c'.self = c.self)
    (hmap : c'.map = some { m with eFdWrite := none })
    (hlist : c'.ev.fdEventList = delEvent addr c.ev.fdEventList)
    (hnext : c.ev.next ≤ c'.ev.next) : Registered exact c' := by
  have hgone : Points Event.addr c.ownsWrite c'.ev.fdEventList none := by
    have hw := h.write
    rw [writePtr_eq hm, hptr] at hw
    rw [hlist]
    exact hw.remove
  refine ⟨fun e he hown => ?_, ?_, ?_, ?_, ?_⟩
  · rw [owns_congr hself] at hown
    have hmem : e ∈ c.ev.fdEventList := by
      rw [hlist] at he
      exact (mem_delEvent.mp he).1
    refine socketEvent_mono (h.shape e hmem hown) hself fun hmine => ?_
    cases hgone.eq_some he hmine
  · obtain ⟨q, hq, hcase⟩ := h.read
    rw [readPtr_eq hm] at hcase
    rw [ownsRead_congr hself, readPtr_eq hmap, hlist]
    refine ⟨q, hq.remove_other ?_, hcase⟩
    rintro rfl
    rcases hcase with hr | ⟨-, hr⟩
    · exact h.apart m hm addr hr.symm hptr
    · cases hr
  · rw [ownsWrite_congr hself, writePtr_eq hmap]
    exact hgone
  · intro m' hm' a ha
    obtain rfl := Option.some.inj (hmap.symm.trans hm')
    rcases ha with ha | ha
    · exact (h.bound m hm a (.inl ha)).trans_le hnext
    · cases ha
  · intro m' hm' a _
    obtain rfl := Option.some.inj (hmap.symm.trans hm')
    nofun

theorem canRead {m : TcpMap} {r : ReadResult} {again : Bool} (h : Registered exact c)
    (hm : c.map = some m) (hptr : m.eFdRead = some addr)
    (hspace : exact → rbLeft c.tcb.outbuf ≠ 0) (hread : CanReadExact c m r a again) :
    Registered exact (finishFd addr a again) := by
  have hlt : addr < c.ev.next := h.bound m hm addr (.inl hptr)
  cases hread with
  | full hfull =>
      -- the pointer to the event is left behind
      have hexact : ¬exact := fun hp => hspace hp hfull
      have hdone := h.readDone hm hptr (.inr ⟨hexact, hptr⟩)
      have hsame : { a with map := some m } = a := by rw [← hm]
      rwa [hsame] at hdone
  | again => exact h
  | closed _ hclose =>
      have hdone := h.readDone hm hptr (.inl rfl)
      exact hdone.steps ((FdSteps.closeBoth hclose).unlink hlt)
  | @filled _ b _ hsend _ =>
      have hmap : b.map = some m := by
        obtain ⟨_, _, _, _, _, -, rfl⟩ := tcpSend_eq hsend
        exact hm
      exact (h.steps (.tcpSend hsend)).readDone hmap hptr (.inl rfl)
  | sent _ hsend => exact h.steps (.tcpSend hsend)

theorem canWrite {m : TcpMap} {r : WriteResult} {again : Bool} (h : Registered exact c)
    (hwf : WellFormed c) (hm : c.map = some m) (hptr : m.eFdWrite = some addr)
    (hr : r ≠ .again) (hwrite : CanWriteExact c m r a again) :
    Registered exact (finishFd addr a again) := by
  have hlt : addr < c.ev.next := h.bound m hm addr (.inr hptr)
  cases hwrite with
  | again hagain _ => exact absurd hagain hr
  | @closed b _ d _ hread hclose =>
      obtain ⟨hself, -, hlist, hnext⟩ := tcpRead_fd hread
      have hdone : Registered exact
          (unlinkFd addr { b with map := some { m with eFdWrite := none } }) := by
        refine h.writeDone hm hptr hself rfl ?_ hnext
        simp only [unlinkFd, removeFdEvent, hlist]
      exact hdone.steps ((FdSteps.closeBoth hclose).unlink (hlt.trans_le hnext))
  | @wrote b d n _ _ _ hread =>
      obtain ⟨hself, -, hlist, hnext⟩ := tcpRead_fd hread
      have hall : afterRead m d = { m with eFdWrite := none } := by
        have hlen := tcpRead_read_le hwf.inbuf hread
        have hused := hwf.inbuf.ok.used_le
        have hsize := hwf.inSize
        rw [afterRead, if_pos]
        rw [tbSize]
        omega
      rw [hall]
      refine h.writeDone hm hptr hself rfl ?_ hnext
      simp only [finishFd, removeFdEvent, hlist, Option.isSome_none, Bool.false_eq_true, if_false]

theorem didConnect {m : TcpMap} {ok : Bool} (h : Registered exact c) (hm : c.map = some m)
    (hptr : m.eFdWrite = some addr)
    (hconn : ok = true ∧ a = tcpAccept { c with map := some { m with eFdWrite := none } } ∨
      ok = false ∧ closeBoth { c with map := some { m with eFdWrite := none } } = some a) :
    Registered exact (finishFd addr a false) := by
  have hlt : addr < c.ev.next := h.bound m hm addr (.inr hptr)
  have hdone : Registered exact
      (unlinkFd addr { c with map := some { m with eFdWrite := none } }) :=
    h.writeDone hm hptr rfl rfl rfl le_rfl
  rcases hconn with ⟨-, rfl⟩ | ⟨-, hclose⟩
  · exact hdone.steps ((FdSteps.tcpAccept _).unlink hlt)
  · exact hdone.steps ((FdSteps.closeBoth hclose).unlink hlt)

/-- The event that runs is the one the map points to. -/
theorem pointed {e : Event} (h : Registered exact c) (he : e ∈ c.ev.fdEventList)
    (hown : c.owns e = true) : (e.func = .handleFdCanRead → c.readPtr = some e.addr) ∧
      (e.func ≠ .handleFdCanRead → c.writePtr = some e.addr) := by
  refine ⟨fun hf => ?_, fun hf => ?_⟩
  · obtain ⟨q, hq, hcase⟩ := h.read
    have hsome := hq.eq_some he (by simp [Conn.ownsRead, hown, hf])
    rcases hcase with rfl | ⟨-, rfl⟩
    · exact hsome
    · cases hsome
  · exact h.write.eq_some he (by simp [Conn.ownsWrite, hown, hf])

theorem fdEvent {io : Io} (h : Registered exact c) (hwf : WellFormed c)
    (hspace : exact → ∀ r, io = .read r → rbLeft c.tcb.outbuf ≠ 0)
    (haccept : 0 < c.tcb.inbuf.used → io ≠ .write .again)
    (hrun : runFdEvent c addr io = some c') : Registered exact c' := by
  obtain ⟨e, he, rfl, hdata, b, again, rfl, hcases⟩ := runFdEvent_cases hrun
  have hown := owns_of_tcpMap hdata
  obtain ⟨hread, hwrite⟩ := h.pointed he hown
  rcases hcases with ⟨r, hf, hio, hcall⟩ | ⟨r, hf, hio, hcall⟩ | ⟨ok, hf, -, hcall⟩
  · obtain ⟨m, hm, hcall⟩ := handleFdCanRead_cases hcall
    have hptr := hread hf
    rw [readPtr_eq hm] at hptr
    exact h.canRead hm hptr (fun hp => hspace hp r hio) hcall
  · obtain ⟨m, hm, hcall⟩ := handleFdCanWrite_cases hcall
    have hptr := hwrite (by rw [hf]; nofun)
    rw [writePtr_eq hm] at hptr
    -- the event waits for data, so the condition on `write` applies
    have hpos : 0 < c.tcb.inbuf.used := by
      obtain ⟨-, ⟨hf', -⟩ | ⟨hf' | ⟨-, hpos⟩, -⟩⟩ := h.shape e he hown
      · rw [hf] at hf'
        cases hf'
      · rw [hf] at hf'
        cases hf'
      · exact hpos
    refine h.canWrite hwf hm hptr (fun hr => haccept hpos ?_) hcall
    rw [hio, hr]
  · obtain ⟨rfl, m, hm, hcall⟩ := handleFdDidConnect_cases hcall
    have hptr := hwrite (by rw [hf]; nofun)
    rw [writePtr_eq hm] at hptr
    exact h.didConnect hm hptr hcall

/-! ## Other steps -/

theorem timeEvent (h : Registered exact c) (hrun : runTimeEvent c addr = some c') :
    Registered exact c' := by
  obtain ⟨e, -, -, -, ⟨-, rfl⟩ | ⟨-, rfl⟩⟩ := runTimeEvent_cases hrun
  · exact (h.steps (.tcpTimeout c)).same rfl rfl rfl le_rfl (.inr le_rfl)
  · exact (h.steps (.tcpRemove c)).same rfl rfl rfl le_rfl (.inr le_rfl)

theorem wrote {again : Bool} (h : Registered exact c) (hw : Wrote c now a again) :
    Registered exact a := by
  cases hw with
  | syn => exact h.same rfl rfl rfl le_rfl (.inr le_rfl)
  | nothing => exact h.same rfl rfl rfl le_rfl (.inr le_rfl)
  | @segment data b _ _ _ hb _ =>
      have hemit : FdSteps c b := hb ▸ .emitSegment c data _ now
      exact (h.steps hemit).same rfl rfl rfl le_rfl (.inr le_rfl)

/-- The calls of an application other than the relay, which has no map. -/
theorem call {k : AppCall} (h : Registered exact c) (hmap : c.map = none)
    (hcall : CallExact c k c') : Registered exact c' := by
  cases hcall with
  | accept => exact h.steps (.tcpAccept c)
  | send _ _ hsend => exact h.steps (.tcpSend hsend)
  | read hread =>
      obtain ⟨hself, hsame, hlist, hnext⟩ := tcpRead_fd hread
      refine h.same hself hsame (by rw [hlist]) hnext (.inl ?_)
      rw [Conn.writePtr, hmap, Option.bind_none]
  | @close hard => exact h.steps (.tcpClose c hard)

theorem stepped {i : Input} (h : Registered exact c) (hwf : WellFormed c)
    (hspace : exact → ∀ addr r, i = .fdEvent addr (.read r) → rbLeft c.tcb.outbuf ≠ 0)
    (haccept : 0 < c.tcb.inbuf.used → ∀ addr, i ≠ .fdEvent addr (.write .again))
    (hstep : Ptrtd.step c i = some c') : Registered exact c' := by
  obtain ⟨-, hexact⟩ := step_exact hstep
  cases hexact with
  | @packet s now _ htcp =>
      have hr : Registered exact (c.receive s) := h.same rfl rfl rfl le_rfl (.inr le_rfl)
      exact hr.steps (.handleTcp (hwf.receive s) htcp)
  | timeEvent hrun => exact h.timeEvent hrun
  | @fdEvent addr io _ hrun =>
      refine h.fdEvent hwf (fun hp r hr => ?_) (fun hpos hagain => ?_) hrun
      · exact hspace hp addr r (by rw [hr])
      · exact haccept hpos addr (by rw [hagain])
  | alwaysEvent hrun =>
      obtain ⟨e, -, -, -, b, again, hw, rfl⟩ := runAlwaysEvent_cases hrun
      have hb := h.wrote hw
      split
      · exact hb
      · exact hb.same rfl rfl rfl le_rfl (.inr le_rfl)
  | call hcb hcall => exact h.call (hwf.map_none (by rw [hcb]; nofun)) hcall
  | others hev =>
      obtain ⟨hnext, -, hfd, -⟩ := hev
      exact h.same rfl rfl hfd hnext (.inr le_rfl)

/-! ## Runs -/

theorem fresh {self : ℕ} {app : TcpCallback} {isn : Uint} {ev : EventLists} {syn : Segment}
    (hev : freshAddr self ev) : Registered exact (.fresh self app isn ev syn) := by
  have hnot : ∀ e ∈ ev.fdEventList, ¬(Conn.fresh self app isn ev syn).owns e = true :=
    List.filter_eq_nil_iff.mp (filter_owns_fresh hev).2.1
  have hnone : ∀ q : Event → Bool, (ev.fdEventList.filter fun e =>
      (Conn.fresh self app isn ev syn).owns e && q e) = [] := by
    intro q
    refine List.filter_eq_nil_iff.mpr fun e he hmine => ?_
    exact hnot e he (Bool.and_eq_true_iff.mp hmine).1
  exact ⟨fun e he hown => absurd hown (hnot e he), ⟨none, points_none.mpr (hnone _), .inl rfl⟩,
    points_none.mpr (hnone _), nofun, nofun⟩

/-- A new map has no events yet. -/
theorem newMap {fd : ℤ} (h : Registered exact c) (hmap : c.map = none) :
    Registered exact { c with map := some ⟨fd, none, none⟩ } := by
  refine ⟨h.shape, ⟨none, ?_, .inl rfl⟩, ?_, ?_, ?_⟩
  · obtain ⟨q, hq, hcase⟩ := h.read
    rw [Conn.readPtr, hmap, Option.bind_none] at hcase
    rcases hcase with rfl | ⟨-, rfl⟩ <;> exact hq
  · have hw := h.write
    rw [Conn.writePtr, hmap, Option.bind_none] at hw
    exact hw
  · rintro _ ⟨⟩ a (ha | ha) <;> cases ha
  · rintro _ ⟨⟩ a ha
    cases ha

theorem of_start {app : TcpCallback} (h : Start app c) : Registered exact c := by
  obtain ⟨self, isn, ev, syn, hfresh, hopen⟩ := start_exact h
  have hnew : Registered exact (.fresh self app isn ev syn) := fresh hfresh
  cases hopen with
  | other => exact hnew
  | connected => exact (hnew.newMap rfl).steps (.tcpAccept _)
  | inProgress => exact (hnew.newMap rfl).addWrite rfl rfl (.inl rfl)
  | failed _ hclose => exact (hnew.newMap rfl).steps (.closeBoth hclose)

end Registered

/-! ## No event is orphaned -/

/-- `ev.fd.write` -/
def Event.writes (e : Event) : Bool :=
  match e.kind with
  | .fd _ w => w
  | _ => false

/-- The socket events of a map and its two pointers agree, and there is at most one event to
read and one to write. -/
structure NoOrphan (c : Conn) : Prop where
  stored : ∀ e ∈ c.ev.fdEventList, e.data = .tcpMap c.self → ∃ m, c.map = some m ∧
    (if e.writes then m.eFdWrite else m.eFdRead) = some e.addr
  pending : ∀ m, c.map = some m → ∀ a, m.eFdRead = some a ∨ m.eFdWrite = some a →
    ∃ e ∈ c.ev.fdEventList, e.data = .tcpMap c.self ∧ e.addr = a
  single : ∀ w, (c.ev.fdEventList.filter fun e =>
    e.data = .tcpMap c.self ∧ e.writes = w).length ≤ 1

namespace Registered

/-- The direction in which an event waits is that of its callback. -/
theorem writes_iff (h : Registered exact c) {e : Event} (he : e ∈ c.ev.fdEventList)
    (hown : c.owns e = true) : e.writes = true ↔ e.func ≠ .handleFdCanRead := by
  obtain ⟨-, ⟨hf, fd, hkind⟩ | ⟨hf, fd, hkind⟩⟩ := h.shape e he hown
  · simp [Event.writes, hkind, hf]
  · rcases hf with hf | ⟨hf, -⟩ <;> simp [Event.writes, hkind, hf]

theorem stored (h : Registered exact c) {e : Event} (he : e ∈ c.ev.fdEventList)
    (hdata : e.data = .tcpMap c.self) : ∃ m, c.map = some m ∧
      (if e.writes then m.eFdWrite else m.eFdRead) = some e.addr := by
  have hown := owns_of_tcpMap hdata
  have hdir := h.writes_iff he hown
  obtain ⟨hread, hwrite⟩ := h.pointed he hown
  by_cases hf : e.func = .handleFdCanRead
  · obtain ⟨m, hm, hptr⟩ := Option.bind_eq_some_iff.mp (hread hf)
    have hw : e.writes = false := by simpa [hf] using hdir
    exact ⟨m, hm, by simpa [hw] using hptr⟩
  · obtain ⟨m, hm, hptr⟩ := Option.bind_eq_some_iff.mp (hwrite hf)
    have hw : e.writes = true := hdir.mpr hf
    exact ⟨m, hm, by simpa [hw] using hptr⟩

theorem single (h : Registered exact c) (w : Bool) :
    (c.ev.fdEventList.filter fun e => e.data = .tcpMap c.self ∧ e.writes = w).length ≤ 1 := by
  obtain ⟨q, hq, -⟩ := h.read
  have hmine : ∀ e ∈ c.ev.fdEventList, decide (e.data = .tcpMap c.self ∧ e.writes = w) =
      (if w then c.ownsWrite e else c.ownsRead e) := by
    intro e he
    cases hown : c.owns e with
    | false =>
        have hdata : e.data ≠ .tcpMap c.self := fun hd => by
          rw [owns_of_tcpMap hd] at hown
          cases hown
        simp [hdata, Conn.ownsWrite, Conn.ownsRead, hown]
    | true =>
        have hdir := h.writes_iff he hown
        have hdata := (h.shape e he hown).1
        cases w <;> cases hw : e.writes <;> simp_all [Conn.ownsWrite, Conn.ownsRead]
  rw [List.filter_congr hmine]
  cases w with
  | false => exact hq.length_le
  | true => exact h.write.length_le

theorem noOrphan (h : Registered exact c) (hexact : exact) : NoOrphan c := by
  refine ⟨fun e he hdata => h.stored he hdata, fun m hm a ha => ?_, h.single⟩
  have hdata : ∀ e ∈ c.ev.fdEventList, c.owns e = true → e.data = .tcpMap c.self :=
    fun e he hown => (h.shape e he hown).1
  rcases ha with ha | ha
  · obtain ⟨q, hq, hcase⟩ := h.read
    rw [readPtr_eq hm, ha] at hcase
    rcases hcase with rfl | ⟨hnot, -⟩
    · obtain ⟨e, he, hmine, haddr⟩ := hq.exists_mem
      exact ⟨e, he, hdata e he (Bool.and_eq_true_iff.mp hmine).1, haddr⟩
    · exact absurd hexact hnot
  · have hw := h.write
    rw [writePtr_eq hm, ha] at hw
    obtain ⟨e, he, hmine, haddr⟩ := hw.exists_mem
    exact ⟨e, he, hdata e he (Bool.and_eq_true_iff.mp hmine).1, haddr⟩

end Registered

/-- `write` never returns EAGAIN while there is data for it, and `handle_fd_can_read` never
finds that there is no output space at all. -/
def Unblocked (c : Conn) : Input → Prop
  | .fdEvent _ (.write r) => 0 < c.tcb.inbuf.used → r ≠ .again
  | .fdEvent _ (.read _) => tcpGetOutputSpace c.tcb ≠ 0
  | _ => True

instance (c : Conn) : (i : Input) → Decidable (Unblocked c i)
  | .fdEvent _ (.write _) => inferInstanceAs (Decidable (_ → _))
  | .fdEvent _ (.read _) => inferInstanceAs (Decidable (_ ≠ _))
  | .fdEvent _ (.connect _) | .packet _ _ | .timeEvent _ | .alwaysEvent _ _ | .call _
  | .others _ => isTrue trivial

theorem Registered.of_unblocked {ok : Conn → Input → Prop} (hok : ∀ c i, ok c i → Unblocked c i)
    (h : Reached ok c) : Registered True c := by
  refine h.run_invariant (fun _ _ => .of_start) fun c i c' hwf hinv hi hstep => ?_
  have hfree := hok c i hi
  refine hinv.stepped hwf (fun _ addr r hread => ?_) (fun hpos addr hwrite => ?_) hstep
  · subst hread
    exact hfree
  · subst hwrite
    exact hfree hpos rfl

/-- As long as no socket callback is blocked, every socket event in the list is the one that
its map has stored, whatever else the peer and the sockets do. -/
theorem noOrphan_of_unblocked (h : Reached Unblocked c) : NoOrphan c :=
  (Registered.of_unblocked (fun _ _ => id) h).noOrphan trivial

/-- A byte for the socket is waiting to be written. -/
theorem noOrphan_of_unblocked_byte : ∃ c, Reached Unblocked c ∧ NoOrphan c ∧
    c.ev.fdEventList.map Event.addr = [3, 1] := by
  have hexec : (execFrom Unblocked .tcpMapCb 0 (clientSyn 8192) (.connected 5)
      (handshake ++ [client 1001 0x10001 0x18 8192 [7]])).any
      (fun c => c.ev.fdEventList.map Event.addr = [3, 1]) = true := by
    decide +kernel
  obtain ⟨c, hreach, hc⟩ := reached_of_exec hexec
  exact ⟨c, hreach, noOrphan_of_unblocked hreach, of_decide_eq_true hc⟩

/-- The write event stays after EAGAIN while the map forgets it, and outlives the map when the
client resets the connection. The read event is unlinked while the map keeps it when a forged
acknowledgement has filled `outbuf` to the brim. -/
theorem orphan_after_again :
    (∃ c, Reached Transition.Always c ∧ c.map = none ∧
      ∃ e ∈ c.ev.fdEventList, e.data = .tcpMap c.self ∧ e.func = .handleFdCanWrite) ∧
    ∃ c, Reached Transition.Always c ∧ c.map = some ⟨5, some 1, none⟩ ∧
      ∀ e ∈ c.ev.fdEventList, e.addr ≠ 1 := by
  have hagain : (execFrom Transition.Always .tcpMapCb 0 (clientSyn 8192) (.connected 5)
      (handshake ++ [client 1001 0x10001 0x18 8192 [7], .fdEvent 3 (.write .again),
        client 1002 0 0x4 0 []])).any
      (fun c => c.map = none ∧ ∃ e ∈ c.ev.fdEventList,
        e.data = .tcpMap c.self ∧ e.func = .handleFdCanWrite) = true := by
    decide +kernel
  have hfull : (execFrom Transition.Always .tcpMapCb 0xFFFF (clientSyn 8192) (.connected 5)
      [.alwaysEvent 0 ⟨0, 0⟩, client 1001 1 0x10 8192 [], client 1001 0xFFFFC001 0x10 8192 [],
        .fdEvent 1 (.read .again)]).any
      (fun c => c.map = some ⟨5, some 1, none⟩ ∧ ∀ e ∈ c.ev.fdEventList, e.addr ≠ 1) = true := by
    decide +kernel
  obtain ⟨c, hreach, hc⟩ := reached_of_exec hagain
  obtain ⟨c', hreach', hc'⟩ := reached_of_exec hfull
  exact ⟨⟨c, hreach, of_decide_eq_true hc⟩, c', hreach', of_decide_eq_true hc'⟩

end Ptrtd
