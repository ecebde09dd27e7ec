import Ptrtd.Verification.Session.WellFormed

/-! # Histories only grow

A step never takes back a segment sent or received or a call of `tcp_accept`, never
changes `iss` or `mss`, and never returns to `SYN_RECVD`. -/

namespace Ptrtd

variable {a c c' : Conn} {s : Segment} {now : Timeval}

/-- `c'` can be a later state of `c`. -/
structure Later (c c' : Conn) : Prop where
  iss : c'.tcb.iss = c.tcb.iss
  mss : c'.tcb.mss = c.tcb.mss
  accept : c.trace.acceptCalled = true → c'.trace.acceptCalled = true
  sent : ∀ s ∈ c.trace.sent, s ∈ c'.trace.sent
  received : ∀ s ∈ c.trace.received, s ∈ c'.trace.received
  state : c.tcb.state ≠ .synRecvd → c'.tcb.state ≠ .synRecvd

namespace Later

theorem rfl : Later c c := ⟨Eq.refl _, Eq.refl _, id, fun _ => id, fun _ => id, id⟩

theorem trans (h : Later c a) (h' : Later a c') : Later c c' :=
  ⟨h'.iss.trans h.iss, h'.mss.trans h.mss, fun hs => h'.accept (h.accept hs),
    fun s hs => h'.sent s (h.sent s hs), fun s hs => h'.received s (h.received s hs),
    fun hs => h'.state (h.state hs)⟩

/-- Parts that touch neither the trace nor the state. -/
theorem of_eq (hiss : c'.tcb.iss = c.tcb.iss) (hmss : c'.tcb.mss = c.tcb.mss)
    (htrace : c'.trace = c.trace) (hstate : c'.tcb.state = c.tcb.state) : Later c c' := by
  refine ⟨hiss, hmss, ?_, ?_, ?_, ?_⟩
  · rw [htrace]
    exact id
  · rw [htrace]
    exact fun _ => id
  · rw [htrace]
    exact fun _ => id
  · rw [hstate]
    exact id

theorem markForIfWrite (c : Conn) : Later c (markForIfWrite c) := by
  obtain ⟨l, n, e, -, heq⟩ := markForIfWrite_eq c
  rw [heq]
  exact .of_eq (Eq.refl _) (Eq.refl _) (Eq.refl _) (Eq.refl _)

theorem tcpAccept (c : Conn) : Later c (tcpAccept c) := by
  have hcall : Later c { c with trace := { c.trace with acceptCalled := true } } :=
    ⟨Eq.refl _, Eq.refl _, fun _ => Eq.refl _, fun _ => id, fun _ => id, id⟩
  exact hcall.trans (.markForIfWrite _)

theorem receive (c : Conn) (s : Segment) : Later c (c.receive s) :=
  ⟨Eq.refl _, Eq.refl _, id, fun _ => id, fun _ => List.mem_append_left _, id⟩

theorem handleOld (c : Conn) : Later c (handleOld c) := by
  obtain ⟨l, n, e, la, heq⟩ := handleOld_eq c
  rw [heq]
  exact .of_eq (Eq.refl _) (Eq.refl _) (Eq.refl _) (Eq.refl _)

theorem handleWindow (c : Conn) (s : Segment) : Later c (handleWindow c s) := by
  obtain ⟨l, n, e, heq⟩ := handleWindow_eq c s
  rw [heq]
  exact .of_eq (Eq.refl _) (Eq.refl _) (Eq.refl _) (Eq.refl _)

theorem handleNewAck {ack : Uint} (h : handleNewAck c ack now = some c') : Later c c' := by
  obtain ⟨m, ev, r, d, o, e, k, w, -, -, -, rfl⟩ := handleNewAck_eq h
  exact .of_eq (Eq.refl _) (Eq.refl _) (Eq.refl _) (Eq.refl _)

theorem enterTimeWait (c : Conn) : Later c (enterTimeWait c now) := by
  obtain ⟨l, n, e, heq⟩ := enterTimeWait_eq c now
  rw [heq]
  exact ⟨Eq.refl _, Eq.refl _, id, fun _ => id, fun _ => id, fun _ => nofun⟩

theorem handleAllAcked {f : Flow} (h : handleAllAcked c now = some f) : Later c f.conn := by
  cases handleAllAcked_effect h with
  | opened _ _ hchange =>
      obtain ⟨m, l, n, -, rfl⟩ := hchange
      exact ⟨Eq.refl _, Eq.refl _, id, fun _ => id, fun _ => id, fun _ => nofun⟩
  | deleted => exact .of_eq (Eq.refl _) (Eq.refl _) (Eq.refl _) (Eq.refl _)
  | finAcked => exact ⟨Eq.refl _, Eq.refl _, id, fun _ => id, fun _ => id, fun _ => nofun⟩
  | bothClosed => exact .enterTimeWait c
  | stillClosing => exact .rfl
  | other => exact .rfl

theorem handleAck {f : Flow} (h : handleAck c s now = some f) : Later c f.conn := by
  rcases handleAck_cases h with ⟨-, rfl⟩ | ⟨-, a, hnew, hall⟩
  · exact .rfl
  · have ha : Later c a := by
      rcases hnew with ⟨-, hnew⟩ | ⟨-, rfl⟩
      · exact .handleNewAck hnew
      · exact .rfl
    rcases hall with ⟨-, hall⟩ | ⟨-, rfl⟩
    · exact ha.trans (.handleAllAcked hall)
    · exact ha

theorem tcpRecvData {fin : Bool} (h : tcpRecvData c s = some (c', fin)) : Later c c' := by
  obtain ⟨-, m, ev, e, r, w, x, -, -, -, rfl⟩ := tcpRecvData_eq h
  exact ⟨Eq.refl _, Eq.refl _, id, fun _ => id, fun _ => id, id⟩

theorem handleData (h : handleData c s now = some c') : Later c c' := by
  cases handleData_effect h with
  | ignored => exact .rfl
  | data _ hrecv _ => exact .tcpRecvData hrecv
  | finWait2 _ hrecv => exact (tcpRecvData hrecv).trans (.enterTimeWait _)
  | finWait1 _ hrecv =>
      exact (tcpRecvData hrecv).trans
        ⟨Eq.refl _, Eq.refl _, id, fun _ => id, fun _ => id, fun _ => nofun⟩
  | closeWait _ _ hrecv hclose =>
      obtain ⟨m, ev, e, b, -, -, -, -, rfl⟩ := tcpRemoteClose_eq (Eq.refl _) hclose
      exact (tcpRecvData hrecv).trans
        ⟨Eq.refl _, Eq.refl _, id, fun _ => id, fun _ => id, fun _ => nofun⟩

theorem handleTcp (h : handleTcp c s now = some c') : Later c c' := by
  rcases handleTcp_cases h with ⟨-, hrst⟩ | ⟨-, hdone⟩ | ⟨-, a, hnext, hrest⟩
  · obtain ⟨m, ev, b, -, -, rfl⟩ := handleRst_eq hrst
    exact ⟨Eq.refl _, Eq.refl _, id, fun _ => id, fun _ => id, id⟩
  · exact .handleAck hdone
  · have ha : Later c a := .handleAck hnext
    rcases hrest with ⟨-, rfl⟩ | ⟨-, hdata⟩
    · exact ha.trans (.handleOld a)
    · exact (ha.trans (.handleWindow a s)).trans (.handleData hdata)

theorem closedBoth {m : Option TcpMap} (h : ClosedBoth { c with map := m } c') : Later c c' := by
  cases h with
  | reset =>
      exact ⟨Eq.refl _, Eq.refl _, id, fun _ => List.mem_append_left _, fun _ => id, id⟩
  | fin =>
      refine ⟨Eq.refl _, Eq.refl _, id, fun _ => id, fun _ => id, fun _ => ?_⟩
      dsimp only
      split <;> nofun

theorem tcpClose (c : Conn) (hard : Bool) : Later c (tcpClose c hard) := by
  generalize hclosed : Ptrtd.tcpClose c hard = c'
  cases tcpClose_cases hclosed with
  | reset =>
      exact ⟨Eq.refl _, Eq.refl _, id, fun _ => List.mem_append_left _, fun _ => id, id⟩
  | fin =>
      refine ⟨Eq.refl _, Eq.refl _, id, fun _ => id, fun _ => id, fun _ => ?_⟩
      dsimp only
      split <;> nofun

theorem tcpSend {d : List Uchar} (h : tcpSend c d = some c') : Later c c' := by
  obtain ⟨r, k, l, n, e, -, rfl⟩ := tcpSend_eq h
  exact ⟨Eq.refl _, Eq.refl _, id, fun _ => id, fun _ => id, id⟩

theorem tcpRead {len : ℤ} {d : List Uchar} (h : tcpRead c len = some (c', d)) : Later c c' := by
  obtain ⟨l, n, e, la, -, rfl⟩ := tcpRead_eq h
  exact .of_eq (Eq.refl _) (Eq.refl _) (Eq.refl _) (Eq.refl _)

theorem wrote {again : Bool} (h : Wrote c now c' again) : Later c c' := by
  cases h with
  | syn => exact ⟨Eq.refl _, Eq.refl _, id, fun _ => List.mem_append_left _, fun _ => id, id⟩
  | nothing => exact .of_eq (Eq.refl _) (Eq.refl _) (Eq.refl _) (Eq.refl _)
  | segment _ _ ha _ =>
      obtain ⟨l, n, e, k, m, r, w, la, heq⟩ := emitSegment_eq c _ _ now
      rw [heq] at ha
      subst ha
      exact ⟨Eq.refl _, Eq.refl _, id, fun _ => List.mem_append_left _, fun _ => id, id⟩

theorem setEv (c : Conn) (ev : EventLists) : Later c { c with ev := ev } :=
  .of_eq (Eq.refl _) (Eq.refl _) (Eq.refl _) (Eq.refl _)

theorem setMap (c : Conn) (m : Option TcpMap) : Later c { c with map := m } :=
  .of_eq (Eq.refl _) (Eq.refl _) (Eq.refl _) (Eq.refl _)

theorem canRead {r : ReadResult} {again : Bool} (h : CanRead c r c' again) : Later c c' := by
  cases h with
  | nothing => exact .rfl
  | closed _ hclose => exact .closedBoth hclose
  | sent _ _ hsend _ => exact (tcpSend hsend).trans (.setMap _ _)

theorem canWrite {r : WriteResult} {again : Bool} (h : CanWrite c r c' again) : Later c c' := by
  cases h with
  | again _ hread _ => exact (tcpRead hread).trans (.setMap _ _)
  | closed _ hread hclose => exact (tcpRead hread).trans (.closedBoth hclose)
  | wrote _ _ _ hread _ =>
      exact (tcpRead hread).trans ⟨Eq.refl _, Eq.refl _, id, fun _ => id, fun _ => id, id⟩

theorem didConnect {ok again : Bool} (h : DidConnect c ok c' again) : Later c c' := by
  cases h with
  | accepted => exact (setMap c _).trans (.tcpAccept _)
  | closed _ hclose => exact .closedBoth hclose

theorem tcpTimeout (c : Conn) : Later c (tcpTimeout c) := by
  have hreset : Later c
      { c with
        tcb := windowUpdate
          { c.tcb with
            eTimeout := none, sndNxt := c.tcb.sndUna, rttMark := c.tcb.sndUna - 1
            sndCwnd := 0 } } := .of_eq (Eq.refl _) (Eq.refl _) (Eq.refl _) (Eq.refl _)
  exact hreset.trans (.markForIfWrite _)

theorem stepped {i : Input} (h : Stepped c i c') : Later c c' := by
  cases h with
  | packet htcp => exact (receive c _).trans (.handleTcp htcp)
  | timeout => exact (tcpTimeout c).trans (.setEv _ _)
  | removed => exact .of_eq (Eq.refl _) (Eq.refl _) (Eq.refl _) (Eq.refl _)
  | canRead _ _ _ _ hread _ => exact (canRead hread).trans (.setEv _ _)
  | canWrite _ _ _ _ hwrite _ => exact (canWrite hwrite).trans (.setEv _ _)
  | didConnect _ _ _ _ hconn _ => exact (didConnect hconn).trans (.setEv _ _)
  | write _ _ _ hw _ => exact (wrote hw).trans (.setEv _ _)
  | accept => exact .tcpAccept c
  | send _ _ _ hsend => exact .tcpSend hsend
  | read _ hread => exact .tcpRead hread
  | close => exact .tcpClose c _
  | others => exact .setEv c _

end Later

/-- Every block uses the same segment size. -/
theorem mss_of_reached {ok : Conn → Input → Prop} (h : Reached ok c) : c.tcb.mss = 1220 := by
  apply h.invariant
  · intro app c hstart
    obtain ⟨self, isn, ev, syn, -, hopen⟩ := start_cases hstart
    cases hopen with
    | other => rfl
    | accepted => exact (Later.tcpAccept _).mss
    | connecting => rfl
    | failed _ hclose => exact (Later.closedBoth hclose).mss
  · intro c i c' _ hmss _ _ hstep
    exact (Later.stepped hstep).mss.trans hmss

end Ptrtd
