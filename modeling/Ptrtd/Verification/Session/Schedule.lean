import Ptrtd.Library.Registry
import Ptrtd.Verification.Session.Events

/-! # The write event

While the block is allocated, `e_tcb_send` points to its only always event, or there is
none. Outside `do_tcb_write` the event is only ever added, and for each function there is
a condition under which it is pending afterwards. -/

namespace Ptrtd

open Registry

variable {p q : Prop} {a c c' : Conn} {s : Segment} {now : Timeval}

/-- The always event of `do_tcb_write` for the block at `self`. -/
def writeEvent (addr self : ℕ) : Event := ⟨addr, .doTcbWrite, .tcb self, .always⟩

/-- A part of a step at most schedules the write event, and it is pending afterwards if `p`
holds. -/
structure Wakes (p : Prop) (c c' : Conn) : Prop where
  self : c'.self = c.self
  live : c'.live = c.live
  change : c'.ev.alwaysEventList = c.ev.alwaysEventList ∧ c'.tcb.eTcbSend = c.tcb.eTcbSend ∨
    c.tcb.eTcbSend = none ∧ ∃ addr, c'.tcb.eTcbSend = some addr ∧
      c'.ev.alwaysEventList = writeEvent addr c.self :: c.ev.alwaysEventList
  due : p → c'.tcb.eTcbSend.isSome = true

/-- The always events of the block are what `e_tcb_send` points to, and a block that has been
deleted has none. -/
structure Queued (c : Conn) : Prop where
  points : Points Event.addr c.owns c.ev.alwaysEventList (if c.live then c.tcb.eTcbSend else none)
  event : ∀ e ∈ c.ev.alwaysEventList, c.owns e = true → e = writeEvent e.addr c.self

namespace Wakes

theorem of_eq (hself : c'.self = c.self) (hlive : c'.live = c.live)
    (hlist : c'.ev.alwaysEventList = c.ev.alwaysEventList)
    (he : c'.tcb.eTcbSend = c.tcb.eTcbSend) : Wakes False c c' :=
  ⟨hself, hlive, .inl ⟨hlist, he⟩, False.elim⟩

theorem refl : Wakes False c c := of_eq rfl rfl rfl rfl

theorem imp (h : Wakes p c c') (himp : q → p) : Wakes q c c' :=
  ⟨h.self, h.live, h.change, fun hq => h.due (himp hq)⟩

/-- What is pending stays pending. -/
theorem isSome (h : Wakes p c c') (hs : c.tcb.eTcbSend.isSome = true) :
    c'.tcb.eTcbSend.isSome = true := by
  rcases h.change with ⟨-, he⟩ | ⟨hnone, -⟩
  · rw [he]
    exact hs
  · rw [hnone] at hs
    cases hs

theorem trans (h : Wakes p c a) (h' : Wakes q a c') : Wakes (p ∨ q) c c' := by
  refine ⟨h'.self.trans h.self, h'.live.trans h.live, ?_, fun hpq => ?_⟩
  · rcases h.change with ⟨hlist, he⟩ | ⟨hnone, addr, he, hlist⟩
    · have hchange := h'.change
      rw [hlist, he, h.self] at hchange
      exact hchange
    · rcases h'.change with ⟨hlist', he'⟩ | ⟨hnone', -⟩
      · exact .inr ⟨hnone, addr, he'.trans he, hlist'.trans hlist⟩
      · rw [he] at hnone'
        cases hnone'
  · rcases hpq with hp | hq
    · exact h'.isSome (h.due hp)
    · exact h'.due hq

/-- A part that does not concern the event, and then one that does. -/
theorem after (h' : Wakes q a c') (h : Wakes False c a) : Wakes q c c' := (h.trans h').imp .inr

/-- A part that does not concern the event at the end. -/
theorem before (h : Wakes p c a) (h' : Wakes False a c') : Wakes p c c' := (h.trans h').imp .inl

/-! ## The functions -/

theorem markForIfWrite (c : Conn) : Wakes True c (markForIfWrite c) := by
  rw [Ptrtd.markForIfWrite]
  split
  · next hs => exact ⟨rfl, rfl, .inl ⟨rfl, rfl⟩, fun _ => hs⟩
  · next hs =>
      have hnone : c.tcb.eTcbSend = none := by simpa using hs
      exact ⟨rfl, rfl, .inr ⟨hnone, c.ev.next, rfl, rfl⟩, fun _ => rfl⟩

/-- Changes elsewhere and then the schedule. -/
theorem of_mark (hself : a.self = c.self) (hlive : a.live = c.live)
    (hlist : a.ev.alwaysEventList = c.ev.alwaysEventList)
    (he : a.tcb.eTcbSend = c.tcb.eTcbSend) : Wakes p c (Ptrtd.markForIfWrite a) :=
  ((markForIfWrite a).after (of_eq hself hlive hlist he)).imp fun _ => trivial

theorem tcpAccept (c : Conn) : Wakes True c (tcpAccept c) :=
  of_mark rfl rfl rfl rfl

theorem of_mapChange (h : MapChange c c') : Wakes False c c' := by
  obtain ⟨m, l, n, -, rfl⟩ := h
  exact of_eq rfl rfl rfl rfl

theorem killMap (h : killMap c = some c') : Wakes False c c' := by
  obtain ⟨-, l, b, rfl⟩ := killMap_eq h
  exact of_eq rfl rfl rfl rfl

theorem cbClosing (h : cbClosing c = some c') : Wakes False c c' := by
  rcases cbClosing_cases h with ⟨heq, -⟩ | ⟨-, hkill⟩
  · exact heq ▸ refl
  · exact killMap hkill

theorem ackTimer (c : Conn) (ack : Uint) (now : Timeval) : Wakes False c (ackTimer c ack now) := by
  obtain ⟨l, n, e, m, w, heq⟩ := ackTimer_eq c ack now
  rw [heq]
  exact of_eq rfl rfl rfl rfl

theorem handleNewAck {ack : Uint} (h : handleNewAck c ack now = some c') : Wakes False c c' := by
  have hack : (ackUna c.tcb ack now).eTcbSend = c.tcb.eTcbSend := by
    rw [ackUna]
    split <;> simp only [sampleRtt]
  have hc : Wakes False c { c with tcb := ackUna c.tcb ack now } :=
    of_eq rfl rfl rfl hack
  rw [Ptrtd.handleNewAck] at h
  dsimp only at h
  split at h
  · obtain ⟨b, hb, rfl⟩ := Option.map_eq_some_iff.mp h
    have hbuf : Wakes False { c with tcb := ackUna c.tcb ack now } _ :=
      (of_mapChange (cbOutputBufferSpace_change hb).2).after
        (of_eq rfl rfl rfl rfl)
    exact ((ackTimer b ack now).after hbuf).after hc
  iterate 3
    · cases h
      exact (ackTimer _ ack now).after hc
  · cases h
    exact hc

theorem enterTimeWait (c : Conn) (now : Timeval) : Wakes False c (enterTimeWait c now) :=
  of_eq rfl rfl rfl rfl

theorem handleOld (c : Conn) : Wakes (c.tcb.state ≠ .synRecvd) c (handleOld c) := by
  rw [Ptrtd.handleOld]
  split
  · next hsyn => exact ⟨rfl, rfl, .inl ⟨rfl, rfl⟩, fun hs => absurd hsyn hs⟩
  · exact of_mark rfl rfl rfl rfl

/-- The event is scheduled when the window opens. -/
theorem handleWindow (c : Conn) (s : Segment) :
    Wakes (windowSize { c.tcb with sndWnd := s.wnd.setWidth 32 } ≤ 0 ∧
      windowSize (windowUpdate { c.tcb with sndWnd := s.wnd.setWidth 32 }) > 0) c
      (handleWindow c s) := by
  rw [Ptrtd.handleWindow]
  dsimp only
  split
  · split
    · exact of_mark rfl rfl rfl rfl
    · next hclosed =>
        exact ⟨rfl, rfl, .inl ⟨rfl, rfl⟩, fun hs => absurd hs.2 hclosed⟩
  · next hopen =>
      exact ⟨rfl, rfl, .inl ⟨rfl, rfl⟩, fun hs => absurd hs.1 hopen⟩

theorem recvPayload (h : recvPayload c s = some c') : Wakes (0 < s.data.length) c c' := by
  rw [Ptrtd.recvPayload] at h
  split at h
  · obtain ⟨b, hb⟩ : ∃ b, b = Ptrtd.markForIfWrite
        { c with tcb := { c.tcb with rcvNxt := c.tcb.rcvNxt + BitVec.ofNat 32 s.data.length } } :=
      ⟨_, rfl⟩
    have hmark : Wakes True c b := by
      rw [hb]
      exact of_mark rfl rfl rfl rfl
    simp only [← hb] at h
    split at h
    · obtain ⟨⟨r, k⟩, -, h⟩ := Option.bind_eq_some_iff.mp h
      have hcall : Wakes False b c' := (of_mapChange (cbDataAvailable_change h).2).after
        (of_eq rfl rfl rfl rfl)
      exact (hmark.before hcall).imp fun _ => trivial
    · cases h
      exact hmark.imp fun _ => trivial
  · next hlen =>
      cases h
      exact refl.imp fun hs => hlen hs

theorem recvFin (c : Conn) (s : Segment) : Wakes (s.isFin = true) c (recvFin c s) := by
  rw [Ptrtd.recvFin]
  split
  · exact of_mark rfl rfl rfl rfl
  · next hfin => exact refl.imp fun hs => hfin hs

theorem tcpRecvData {fin : Bool} (h : tcpRecvData c s = some (c', fin)) :
    Wakes (0 < s.data.length ∨ s.isFin = true) c c' := by
  rw [Ptrtd.tcpRecvData, Option.map_eq_some_iff] at h
  obtain ⟨b, hb, h⟩ := h
  obtain ⟨rfl, rfl⟩ := Prod.mk.inj h
  exact (recvPayload hb).trans (recvFin b s)

/-- A close that queues a FIN schedules the event. -/
theorem tcpClose (hsyn : c.tcb.state ≠ .synRecvd) : Wakes True c (tcpClose c false) := by
  have hno : ¬(false = true ∨ c.tcb.state = .synRecvd) := by simp [hsyn]
  rw [Ptrtd.tcpClose, if_neg hno]
  exact of_mark rfl rfl rfl rfl

theorem tcpRemoteClose (hsyn : c.tcb.state ≠ .synRecvd) (h : tcpRemoteClose c = some c') :
    Wakes True c c' := by
  rw [Ptrtd.tcpRemoteClose, Option.map_eq_some_iff] at h
  obtain ⟨b, hb, rfl⟩ := h
  have hstate : b.tcb.state = c.tcb.state := by
    rcases cbClosing_cases hb with ⟨rfl, -⟩ | ⟨-, hkill⟩
    · exact rfl
    · obtain ⟨-, l, d, rfl⟩ := killMap_eq hkill
      exact rfl
  exact (tcpClose (hstate ▸ hsyn)).after (cbClosing hb)

/-- Data and a FIN are acknowledged. -/
theorem handleData (h : handleData c s now = some c') :
    Wakes ((c.tcb.state = .finWait2 ∨ c.tcb.state = .finWait1 ∨ c.tcb.state = .established) ∧
      (0 < s.data.length ∨ s.isFin = true)) c c' := by
  cases handleData_effect h with
  | ignored h₂ h₁ hest => exact refl.imp fun hs => by simp [h₂, h₁, hest] at hs
  | data _ hrecv _ => exact (tcpRecvData hrecv).imp And.right
  | finWait2 _ hrecv =>
      exact ((tcpRecvData hrecv).before (enterTimeWait _ now)).imp And.right
  | finWait1 _ hrecv =>
      refine ((tcpRecvData hrecv).before ?_).imp And.right
      exact of_eq rfl rfl rfl rfl
  | @closeWait b _ _ _ hrecv hclose =>
      have hstate : Wakes False b { b with tcb := { b.tcb with state := .closeWait } } :=
        of_eq rfl rfl rfl rfl
      have hclosed := (tcpRemoteClose (by nofun) hclose).after hstate
      exact ((tcpRecvData hrecv).trans hclosed).imp fun _ => .inr trivial

theorem tcpSend {d : List Uchar} (h : tcpSend c d = some c') :
    Wakes (windowSize c.tcb > 0) c c' := by
  rw [Ptrtd.tcpSend, Option.map_eq_some_iff] at h
  obtain ⟨⟨r, n⟩, -, h⟩ := h
  dsimp only at h
  split at h
  · subst h
    exact of_mark rfl rfl rfl rfl
  · next hclosed =>
      subst h
      exact ⟨rfl, rfl, .inl ⟨rfl, rfl⟩, fun hs => absurd hs hclosed⟩

/-- Reading from a full buffer schedules the event. -/
theorem tcpRead {len : ℤ} {d : List Uchar} (h : tcpRead c len = some (c', d)) :
    Wakes (rbLeft c.tcb.inbuf = 0) c c' := by
  rw [Ptrtd.tcpRead, Option.map_eq_some_iff] at h
  obtain ⟨b, -, h⟩ := h
  dsimp only at h
  split at h
  · obtain ⟨rfl, rfl⟩ := Prod.mk.inj h
    exact of_mark rfl rfl rfl rfl
  · next hleft =>
      obtain ⟨rfl, rfl⟩ := Prod.mk.inj h
      exact ⟨rfl, rfl, .inl ⟨rfl, rfl⟩, fun hs => absurd hs hleft⟩

theorem tcpTimeout (c : Conn) : Wakes True c (tcpTimeout c) :=
  of_mark rfl rfl rfl rfl

theorem emitSegment (c : Conn) (data : List Uchar) (fin : Bool) (now : Timeval) :
    Wakes False c (emitSegment c data fin now) := by
  obtain ⟨l, n, e, k, m, r, w, a, heq⟩ := emitSegment_eq c data fin now
  rw [heq]
  exact of_eq rfl rfl rfl rfl

end Wakes

/-! ## The invariant -/

theorem removeTime?_always (ev : EventLists) (e : Option ℕ) :
    (removeTime? ev e).alwaysEventList = ev.alwaysEventList := by
  cases e <;> rfl

namespace Queued

theorem wakes (h : Queued c) (hlive : c.live = true) (hw : Wakes p c c') : Queued c' := by
  have howns : c'.owns = c.owns := owns_congr hw.self
  have hpoints := h.points
  rw [if_pos hlive] at hpoints
  rcases hw.change with ⟨hlist, he⟩ | ⟨hnone, addr, he, hlist⟩
  · refine ⟨?_, ?_⟩
    · rw [howns, hlist, he, hw.live, if_pos hlive]
      exact hpoints
    · rw [howns, hlist, hw.self]
      exact h.event
  · rw [hnone] at hpoints
    refine ⟨?_, fun e hmem hown => ?_⟩
    · rw [howns, hlist, he, hw.live, if_pos hlive]
      exact hpoints.add (owns_of_tcb rfl) (List.Perm.refl _)
    · rw [hlist] at hmem
      rw [howns] at hown
      rw [hw.self]
      rcases List.mem_cons.mp hmem with rfl | hold
      · rfl
      · exact h.event e hold hown

/-- The event is taken out of the list, and the pointer with it or the whole block. -/
theorem unlinked (h : Queued c) (hlive : c.live = true) {addr : ℕ}
    (hptr : c.tcb.eTcbSend = some addr) (hself : c'.self = c.self)
    (hlist : c'.ev.alwaysEventList = delEvent addr c.ev.alwaysEventList)
    (hgone : c'.live = false ∨ c'.tcb.eTcbSend = none) : Queued c' := by
  have howns : c'.owns = c.owns := owns_congr hself
  have hpoints := h.points
  rw [if_pos hlive, hptr] at hpoints
  refine ⟨?_, fun e hmem hown => ?_⟩
  · have hnone : (if c'.live = true then c'.tcb.eTcbSend else none) = none := by
      rcases hgone with hdead | hclear
      · simp [hdead]
      · simp [hclear]
    rw [hnone, howns, hlist]
    exact hpoints.remove
  · rw [hlist] at hmem
    rw [howns] at hown
    rw [hself]
    exact h.event e (mem_delEvent.mp hmem).1 hown

/-- Deletion of the block takes its event along. -/
theorem deleted (h : Queued c) (hlive : c.live = true) (hself : c'.self = c.self)
    (hdead : c'.live = false)
    (hlist : c'.ev.alwaysEventList = (removeAlways? c.ev c.tcb.eTcbSend).alwaysEventList) :
    Queued c' := by
  cases hptr : c.tcb.eTcbSend with
  | some addr =>
      rw [hptr] at hlist
      exact h.unlinked hlive hptr hself hlist (.inl hdead)
  | none =>
      rw [hptr] at hlist
      have howns : c'.owns = c.owns := owns_congr hself
      have hpoints := h.points
      rw [if_pos hlive, hptr] at hpoints
      refine ⟨?_, ?_⟩
      · rw [howns, hlist, hdead]
        exact hpoints
      · rw [howns, hlist, hself]
        exact h.event

theorem tcpClose (h : Queued c) (hlive : c.live = true) (hard : Bool) :
    Queued (tcpClose c hard) := by
  rw [Ptrtd.tcpClose]
  split
  · exact h.deleted hlive rfl rfl (removeTime?_always _ _)
  · exact h.wakes (p := True) hlive (.of_mark rfl rfl rfl rfl)

/-- Parts after the block may have been deleted. -/
theorem of_eq (h : Queued c) (hself : c'.self = c.self) (hlive : c'.live = c.live)
    (hlist : c'.ev.alwaysEventList = c.ev.alwaysEventList)
    (he : c'.tcb.eTcbSend = c.tcb.eTcbSend) : Queued c' := by
  have howns : c'.owns = c.owns := owns_congr hself
  refine ⟨?_, ?_⟩
  · rw [howns, hlist, hlive, he]
    exact h.points
  · rw [howns, hlist, hself]
    exact h.event

theorem killMap (h : Queued c) (hkill : killMap c = some c') : Queued c' := by
  obtain ⟨-, l, b, rfl⟩ := killMap_eq hkill
  exact h.of_eq rfl rfl rfl rfl

theorem closeBoth (h : Queued c) (hlive : c.live = true) (hclose : closeBoth c = some c') :
    Queued c' := (h.tcpClose hlive false).killMap hclose

theorem handleRst (h : Queued c) (hlive : c.live = true) (hrst : handleRst c = some c') :
    Queued c' := by
  obtain ⟨b, hb, rfl⟩ := Option.map_eq_some_iff.mp hrst
  have hclosing := Wakes.cbClosing hb
  exact (h.wakes hlive hclosing).deleted (hclosing.live.trans hlive) rfl rfl
    (removeTime?_always _ _)

theorem handleAllAcked {f : Flow} (h : Queued c) (hlive : c.live = true)
    (hf : handleAllAcked c now = some f) :
    Queued f.conn ∧ ∀ b, f = .next b → Wakes False c b := by
  rw [Ptrtd.handleAllAcked] at hf
  split at hf
  · obtain ⟨b, hb, rfl⟩ := Option.map_eq_some_iff.mp hf
    have hw : Wakes False c b := (Wakes.of_mapChange (cbOutputBufferSpace_change hb).2).after
      (.of_eq rfl rfl rfl rfl)
    refine ⟨h.wakes hlive hw, ?_⟩
    rintro _ ⟨⟩
    exact hw
  · cases hf
    refine ⟨h.deleted hlive rfl rfl (removeTime?_always _ _), fun b hb => ?_⟩
    cases hb
  · split at hf
    · cases hf
      refine ⟨h.of_eq rfl rfl rfl rfl, ?_⟩
      rintro _ ⟨⟩
      exact .of_eq rfl rfl rfl rfl
    · cases hf
      refine ⟨h, ?_⟩
      rintro _ ⟨⟩
      exact .refl
  · split at hf
    · cases hf
      refine ⟨h.of_eq rfl rfl rfl rfl, fun b hb => ?_⟩
      cases hb
    · cases hf
      refine ⟨h, fun b hb => ?_⟩
      cases hb
  · cases hf
    refine ⟨h, ?_⟩
    rintro _ ⟨⟩
    exact .refl

theorem handleAck {f : Flow} (h : Queued c) (hlive : c.live = true)
    (hf : handleAck c s now = some f) : Queued f.conn ∧ ∀ b, f = .next b → Wakes False c b := by
  rcases handleAck_cases hf with ⟨-, rfl⟩ | ⟨-, b, hnew, hall⟩
  · refine ⟨h, ?_⟩
    rintro _ ⟨⟩
    exact .refl
  · have hb : Wakes False c b := by
      rcases hnew with ⟨-, hnew⟩ | ⟨-, rfl⟩
      · exact .handleNewAck hnew
      · exact .refl
    rcases hall with ⟨-, hall⟩ | ⟨-, rfl⟩
    · obtain ⟨hq, hnext⟩ := (h.wakes hlive hb).handleAllAcked (hb.live.trans hlive) hall
      exact ⟨hq, fun d hd => (hnext d hd).after hb⟩
    · refine ⟨h.wakes hlive hb, ?_⟩
      rintro _ ⟨⟩
      exact hb

theorem handleTcp (h : Queued c) (hlive : c.live = true) (htcp : handleTcp c s now = some c') :
    Queued c' := by
  rcases handleTcp_cases htcp with ⟨-, hrst⟩ | ⟨-, hdone⟩ | ⟨-, b, hnext, hrest⟩
  · exact h.handleRst hlive hrst
  · exact (h.handleAck hlive hdone).1
  · obtain ⟨hq, hw⟩ := h.handleAck hlive hnext
    have hlive' := (hw b rfl).live.trans hlive
    rcases hrest with ⟨-, rfl⟩ | ⟨-, hdata⟩
    · exact hq.wakes hlive' (.handleOld b)
    · exact hq.wakes hlive' ((Wakes.handleWindow b s).trans (.handleData hdata))

/-- `e_tcb_send` is set whenever the write event runs. -/
theorem pending (h : Queued c) (hlive : c.live = true) {e : Event}
    (he : e ∈ c.ev.alwaysEventList) (hown : c.owns e = true) : c.tcb.eTcbSend = some e.addr := by
  have hp := h.points.eq_some he hown
  rwa [if_pos hlive] at hp

theorem wrote {e : Event} {again : Bool} (h : Queued c) (hlive : c.live = true)
    (he : e ∈ c.ev.alwaysEventList) (hown : c.owns e = true) (hw : Wrote c now a again) :
    Queued (if again then a else { a with ev := removeAlwaysEvent a.ev e.addr }) := by
  have hptr := h.pending hlive he hown
  cases hw with
  | syn => exact h.unlinked hlive hptr rfl rfl (.inr rfl)
  | nothing => exact h.unlinked hlive hptr rfl rfl (.inr rfl)
  | @segment data b w _ _ hb hsend =>
      have hemit : Wakes False c b := hb ▸ .emitSegment c data _ now
      have hq := h.wakes hlive hemit
      have hlive' := hemit.live.trans hlive
      have hptr' : b.tcb.eTcbSend = some e.addr := by
        rcases hemit.change with ⟨-, hsame⟩ | ⟨hnone, -⟩
        · exact hsame.trans hptr
        · rw [hptr] at hnone
          cases hnone
      by_cases hmore : sendAgain b.tcb = true
      · rw [if_pos hmore, hptr'] at hsend
        subst hsend
        exact hq.of_eq rfl rfl rfl hptr'.symm
      · rw [if_neg hmore] at hsend
        subst hsend
        exact hq.unlinked hlive' hptr' rfl rfl (.inr rfl)

theorem fdEvent {addr : ℕ} {io : Io} (h : Queued c) (hlive : c.live = true)
    (hrun : runFdEvent c addr io = some c') : Queued c' := by
  obtain ⟨e, -, -, -, b, again, rfl, hcases⟩ := runFdEvent_cases hrun
  have hb : Queued b := by
    rcases hcases with ⟨r, -, -, hread⟩ | ⟨r, -, -, hwrite⟩ | ⟨ok, -, -, hconn⟩
    · obtain ⟨m, -, hread⟩ := handleFdCanRead_cases hread
      cases hread with
      | full => exact h
      | again => exact h
      | closed _ hclose =>
          have hm : Queued { c with map := some { m with eFdRead := none } } :=
            h.of_eq rfl rfl rfl rfl
          exact hm.closeBoth hlive hclose
      | filled _ hsend => exact (h.wakes hlive (.tcpSend hsend)).of_eq rfl rfl rfl rfl
      | sent _ hsend => exact h.wakes hlive (.tcpSend hsend)
    · obtain ⟨m, -, hwrite⟩ := handleFdCanWrite_cases hwrite
      cases hwrite with
      | again _ hread => exact (h.wakes hlive (.tcpRead hread)).of_eq rfl rfl rfl rfl
      | @closed x _ _ _ hread hclose =>
          have hw := Wakes.tcpRead hread
          have hm : Queued { x with map := some { m with eFdWrite := none } } :=
            (h.wakes hlive hw).of_eq rfl rfl rfl rfl
          exact hm.closeBoth (hw.live.trans hlive) hclose
      | wrote _ _ _ hread => exact (h.wakes hlive (.tcpRead hread)).of_eq rfl rfl rfl rfl
    · obtain ⟨-, m, -, ⟨-, rfl⟩ | ⟨-, hclose⟩⟩ := handleFdDidConnect_cases hconn
      · have hm : Queued { c with map := some { m with eFdWrite := none } } :=
          h.of_eq rfl rfl rfl rfl
        exact hm.wakes hlive (.tcpAccept _)
      · have hm : Queued { c with map := some { m with eFdWrite := none } } :=
          h.of_eq rfl rfl rfl rfl
        exact hm.closeBoth hlive hclose
  rw [finishFd]
  split
  · exact hb
  · exact hb.of_eq rfl rfl rfl rfl

theorem timeEvent {addr : ℕ} (h : Queued c) (hlive : c.live = true)
    (hrun : runTimeEvent c addr = some c') : Queued c' := by
  obtain ⟨e, -, -, -, ⟨-, rfl⟩ | ⟨-, rfl⟩⟩ := runTimeEvent_cases hrun
  · exact (h.wakes hlive (.tcpTimeout c)).of_eq rfl rfl rfl rfl
  · exact h.deleted hlive rfl rfl (removeTime?_always _ _)

theorem call {k : AppCall} (h : Queued c) (hlive : c.live = true) (hcall : CallExact c k c') :
    Queued c' := by
  cases hcall with
  | accept => exact h.wakes hlive (.tcpAccept c)
  | send _ _ hsend => exact h.wakes hlive (.tcpSend hsend)
  | read hread => exact h.wakes hlive (.tcpRead hread)
  | close => exact h.tcpClose hlive _

theorem others {ev : EventLists} (h : Queued c) (hev : othersChanged c ev) :
    Queued { c with ev := ev } := by
  obtain ⟨-, -, -, halways⟩ := hev
  refine ⟨h.points.congr halways, fun e hmem hown => ?_⟩
  have hold : e ∈ c.ev.alwaysEventList.filter c.owns :=
    halways ▸ List.mem_filter.mpr ⟨hmem, hown⟩
  exact h.event e (List.mem_filter.mp hold).1 hown

theorem step {i : Input} (h : Queued c) (hstep : step c i = some c') : Queued c' := by
  obtain ⟨hlive, hexact⟩ := step_exact hstep
  cases hexact with
  | @packet s now _ htcp =>
      have hr : Queued (c.receive s) := h.of_eq rfl rfl rfl rfl
      exact hr.handleTcp hlive htcp
  | timeEvent hrun => exact h.timeEvent hlive hrun
  | fdEvent hrun => exact h.fdEvent hlive hrun
  | alwaysEvent hrun =>
      obtain ⟨e, he, rfl, hdata, b, again, hw, rfl⟩ := runAlwaysEvent_cases hrun
      exact h.wrote hlive he (owns_of_tcb hdata) hw
  | call _ hcall => exact h.call hlive hcall
  | others hev => exact h.others hev

/-! ## Runs -/

theorem fresh {self : ℕ} {app : TcpCallback} {isn : Uint} {ev : EventLists} {syn : Segment}
    (hev : freshAddr self ev) : Queued (.fresh self app isn ev syn) := by
  obtain ⟨-, -, hnone⟩ := filter_owns_fresh hev
  refine ⟨points_none.mpr hnone, fun e he hown => ?_⟩
  exact absurd hown (List.filter_eq_nil_iff.mp hnone e he)

theorem of_start {app : TcpCallback} (h : Start app c) : Queued c := by
  obtain ⟨self, isn, ev, syn, hfresh, hopen⟩ := start_exact h
  have hnew : Queued (.fresh self app isn ev syn) := fresh hfresh
  have hm : ∀ m, Queued { Conn.fresh self app isn ev syn with map := some m } :=
    fun m => hnew.of_eq rfl rfl rfl rfl
  cases hopen with
  | other => exact hnew
  | connected => exact (hm _).wakes rfl (.tcpAccept _)
  | inProgress => exact hnew.of_eq rfl rfl rfl rfl
  | failed _ hclose => exact (hm _).closeBoth rfl hclose

theorem of_reached {ok : Conn → Input → Prop} (h : Reached ok c) : Queued c :=
  h.run_invariant (fun _ _ => of_start) fun _ _ _ _ hq _ hstep => hq.step hstep

end Queued

end Ptrtd
