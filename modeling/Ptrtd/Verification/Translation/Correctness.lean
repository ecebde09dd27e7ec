import Ptrtd.Verification.Translation.Commute
import Ptrtd.Verification.Send.Window

/-! # Moving the sequence numbers of a whole run

Moving all sequence numbers of the peer, or all of ours, moves those of the run and changes
nothing else, as long as the unsigned comparisons that the run makes are not turned around.
Near the end of the sequence space they are. -/

namespace Ptrtd

variable {σ : Offsets} {c c' : Conn} {i : Input} {s : Segment} {now : Timeval} {a r : Uint}

/-! ## The start -/

/-- The block that `handle_tcp` builds for a SYN, with any initial sequence number. -/
def newTcbAt (app : TcpCallback) (iss : Uint) (syn : Segment) : Tcb :=
  windowUpdate
    { newTcb app 0 syn with
      outbuf := rbSet (rbNew (16 * 1024)) (iss + 1)
      sndUna := iss, sndNxt := iss, iss := iss, sndCwnd := 0, sndMax := 0
      rttMark := iss - 1, rttLimit := iss + 1 }

/-- `handle_tcp` on the listener, with any initial sequence number. -/
def handleSynAt (self : ℕ) (app : TcpCallback) (iss : Uint) (ev : EventLists) (syn : Segment)
    (res : ConnectResult) : Option Conn :=
  if syn.flags = 0x2 then
    cbIncomingSession
      { self, tcb := newTcbAt app iss syn, live := true, map := none, ev
        trace := Trace.start syn } res
  else none

/-- The daemon's initial sequence numbers are those of `next_isn`. -/
theorem handleSyn_eq (self : ℕ) (app : TcpCallback) (isn : Uint) (ev : EventLists) (syn : Segment)
    (res : ConnectResult) :
    handleSyn self app isn ev syn res = handleSynAt self app (nextIsn isn) ev syn res := rfl

theorem newTcbAt_shift (app : TcpCallback) (iss a r : Uint) (syn : Segment) :
    newTcbAt app (iss + a) (syn.shift r a) = (newTcbAt app iss syn).shift ⟨a, r, 0, 0⟩ := by
  have hseq : syn.seq + r + 1 = syn.seq + 1 + r := add_right_comm ..
  have hone : iss + a + 1 = iss + 1 + a := add_right_comm ..
  have hmark : iss + a - 1 = iss - 1 + a := add_sub_right_comm ..
  have hmax : ∀ x, iss + a + x = iss + x + a := fun _ => add_right_comm ..
  simp only [newTcbAt, newTcb, windowUpdate, Tcb.shift, rbSet, Ringbuf.shift, Segment.shift, hseq,
    hone, hmark, hmax]
  rfl

theorem Suits.fresh {tr : Trace} {tcb : Tcb} {self : ℕ} {ev : EventLists} {m : Option TcpMap}
    (hsent : tr.sent = []) (htimer : tcb.eTimeout = none) :
    Suits ⟨a, r, 0, 0⟩ { self, tcb, live := true, map := m, ev, trace := tr } :=
  ⟨(if_pos hsent).symm, .inr (.inl htimer)⟩

/-- A new connection with moved numbers is the moved new connection. -/
theorem handleSynAt_shift {self : ℕ} {app : TcpCallback} {iss : Uint} {ev : EventLists}
    {syn : Segment} {res : ConnectResult}
    (h : handleSynAt self app iss ev syn res = some c) :
    ∃ σ, σ.snd = a ∧ σ.rcv = r ∧ Suits σ c ∧
      handleSynAt self app (iss + a) ev (syn.shift r a) res = some (c.shift σ) := by
  obtain ⟨x, hx⟩ : ∃ x : Conn, x =
    { self, tcb := newTcbAt app iss syn, live := true, map := none, ev
      trace := Trace.start syn } := ⟨_, rfl⟩
  have hx' : (⟨self, newTcbAt app (iss + a) (syn.shift r a), true, none, ev,
      Trace.start (syn.shift r a)⟩ : Conn) = x.shift ⟨a, r, 0, 0⟩ := by
    rw [hx, newTcbAt_shift]
    rfl
  have hsuits : Suits ⟨a, r, 0, 0⟩ x := by
    rw [hx]
    exact .fresh rfl rfl
  have hstate : x.tcb.state = .synRecvd := by
    rw [hx]
    rfl
  have hcb : x.tcb.cb = some app := by
    rw [hx]
    rfl
  have hcb' : (x.shift ⟨a, r, 0, 0⟩).tcb.cb = some app := hcb
  have hflags : (syn.shift r a).flags = syn.flags := rfl
  rw [handleSynAt, ← hx] at h
  rw [handleSynAt, hx', hflags]
  split at h
  · next hsyn =>
      rw [if_pos hsyn]
      rw [cbIncomingSession, hcb] at h
      rw [cbIncomingSession, hcb']
      cases app with
      | otherCb =>
          cases h
          exact ⟨_, rfl, rfl, hsuits, rfl⟩
      | tcpMapCb =>
          have hclose : ∀ m : Option TcpMap, Ptrtd.closeBoth { x with map := m } = some c →
              ∃ σ : Offsets, σ.snd = a ∧ σ.rcv = r ∧ Suits σ c ∧
                Ptrtd.closeBoth { x.shift ⟨a, r, 0, 0⟩ with map := m } = some (c.shift σ) := by
            intro m hm
            have hshift := closeBoth_shift ⟨a, r, 0, 0⟩ { x with map := m }
            have hm' : Suits ⟨a, r, 0, 0⟩ { x with map := m } := hsuits.of_eq rfl id
            refine ⟨_, ?_, ?_, hm'.closedBoth (.inl hstate) (closeBoth_effect hm), ?_⟩
            · rw [Offsets.closed]
              split <;> rfl
            · rw [Offsets.closed]
              split <;> rfl
            · rw [hm] at hshift
              exact hshift
          cases res with
          | noSocket => exact hclose _ h
          | failed fd => exact hclose _ h
          | connected fd =>
              cases h
              obtain ⟨l, n, e, -, heq⟩ := tcpAccept_eq { x with map := some ⟨fd, none, none⟩ }
              have haccept := tcpAccept_shift ⟨a, r, 0, 0⟩ { x with map := some ⟨fd, none, none⟩ }
              refine ⟨_, rfl, rfl, ?_, congrArg some haccept⟩
              rw [heq]
              exact hsuits.of_eq rfl id
          | inProgress fd =>
              cases h
              exact ⟨_, rfl, rfl, hsuits.of_eq rfl id, rfl⟩
  · cases h

/-! ## Timers -/

theorem ackTimer_untimed {ack : Uint} (h : c.tcb.eTimeout = none) : ackTimer c ack now = c := by
  rw [ackTimer, h]

theorem Untimed.of_eq (h : Untimed c) (htimer : c'.tcb.eTimeout = c.tcb.eTimeout)
    (hstate : c.tcb.state = .timeWait → c'.tcb.state = .timeWait) : Untimed c' := by
  rcases h with h | h
  · exact .inl (htimer.trans h)
  · exact .inr (hstate h)

theorem Untimed.handleNewAck {ack : Uint} (h : Untimed c)
    (hnew : handleNewAck c ack now = some c') : Untimed c' := by
  obtain ⟨x, d, heq⟩ := ackUna_eq c.tcb ack now
  have htimer : (ackUna c.tcb ack now).eTimeout = c.tcb.eTimeout := by rw [heq]
  have hstate : (ackUna c.tcb ack now).state = c.tcb.state := ackUna_state ..
  by_cases hs : retransmits c.tcb.state = true
  · have hnone : c.tcb.eTimeout = none := by
      rcases h with h | h
      · exact h
      · rw [h] at hs
        cases hs
    by_cases hest : c.tcb.state = .established
    · rw [handleNewAck_established hest] at hnew
      obtain ⟨y, hy, rfl⟩ := Option.map_eq_some_iff.mp hnew
      obtain ⟨-, m, l, n, -, rfl⟩ := cbOutputBufferSpace_change hy
      have hnone' : (ackUna c.tcb ack now).eTimeout = none := htimer.trans hnone
      rw [ackTimer_untimed hnone']
      exact .inl hnone'
    · have hclosing : c.tcb.state = .finWait1 ∨ c.tcb.state = .closing ∨
        c.tcb.state = .lastAck := by
        revert hs hest
        cases c.tcb.state <;> simp [retransmits]
      rw [handleNewAck_timed hclosing] at hnew
      have hnone' : (ackConn c ack now).tcb.eTimeout = none := htimer.trans hnone
      rw [ackTimer_untimed hnone'] at hnew
      cases hnew
      exact .inl hnone'
  · rw [Bool.not_eq_true] at hs
    rw [handleNewAck_other hs] at hnew
    cases hnew
    exact h.of_eq htimer fun hwait => hstate.trans hwait

theorem Untimed.handleAck {f : Flow} (h : Untimed c) (hack : handleAck c s now = some f) :
    Untimed f.conn := by
  rcases handleAck_cases hack with ⟨-, rfl⟩ | ⟨-, x, hnew, hall⟩
  · exact h
  · have hx : Untimed x := by
      rcases hnew with ⟨-, hnew⟩ | ⟨-, rfl⟩
      · exact h.handleNewAck hnew
      · exact h
    rcases hall with ⟨-, hall⟩ | ⟨-, rfl⟩
    · cases handleAllAcked_effect hall with
      | opened hs _ hchange =>
          obtain ⟨m, l, n, -, rfl⟩ := hchange
          exact hx.of_eq rfl fun hwait => nomatch hs.symm.trans hwait
      | deleted => exact hx.of_eq rfl id
      | finAcked hs => exact hx.of_eq rfl fun hwait => nomatch hs.symm.trans hwait
      | bothClosed => exact .inr rfl
      | stillClosing => exact hx
      | other => exact hx
    · exact hx

theorem Untimed.handleData (h : Untimed c) (hdata : handleData c s now = some c') : Untimed c' := by
  cases handleData_effect hdata with
  | ignored => exact h
  | data _ hrecv =>
      obtain ⟨-, m, ev, e, x, w, y, -, -, -, rfl⟩ := tcpRecvData_eq hrecv
      exact h.of_eq rfl id
  | finWait2 => exact .inr rfl
  | finWait1 hs hrecv =>
      obtain ⟨-, m, ev, e, x, w, y, -, -, -, rfl⟩ := tcpRecvData_eq hrecv
      exact h.of_eq rfl fun hwait => nomatch hs.symm.trans hwait
  | closeWait hs _ hrecv hclose =>
      obtain ⟨-, m, ev, e, x, w, y, -, -, -, rfl⟩ := tcpRecvData_eq hrecv
      obtain ⟨m', ev', e', b, -, -, -, -, rfl⟩ := tcpRemoteClose_eq rfl hclose
      exact h.of_eq rfl fun hwait => nomatch hs.symm.trans hwait

theorem Untimed.handleTcp (h : Untimed c) (htcp : handleTcp c s now = some c') : Untimed c' := by
  rcases handleTcp_cases htcp with ⟨-, hrst⟩ | ⟨-, hdone⟩ | ⟨-, x, hnext, hrest⟩
  · obtain ⟨m, ev, b, -, -, rfl⟩ := handleRst_eq hrst
    exact h.of_eq rfl id
  · exact h.handleAck hdone
  · have hx : Untimed x := h.handleAck hnext
    rcases hrest with ⟨-, rfl⟩ | ⟨-, hdata⟩
    · obtain ⟨l, n, e, la, heq⟩ := handleOld_eq x
      rw [heq]
      exact hx.of_eq rfl id
    · obtain ⟨l, n, e, heq⟩ := handleWindow_eq x s
      refine Untimed.handleData ?_ hdata
      rw [heq]
      exact hx.of_eq rfl id

/-! ## Steps -/

/-- The same input with moved numbers. -/
def Input.shift (a r : Uint) : Input → Input
  | .packet s now => .packet (s.shift r a) now
  | i => i

/-- `handle_tcp` leaves when everything is acknowledged. -/
def Leaves (c : Conn) (s : Segment) : Prop :=
  s.isAck = true ∧ (c.outlet.ack s).una = (c.outlet.ack s).nxt ∧
    (c.tcb.state = .closing ∨ c.tcb.state = .lastAck)

instance (c : Conn) (s : Segment) : Decidable (Leaves c s) :=
  inferInstanceAs (Decidable (_ ∧ _ ∧ _))

/-- With our numbers moved by `a` and the peer's by `r`, all comparisons of the step have the
same results; `last_acked` is moved once a segment has been sent. -/
def SameSide (a r : Uint) (c : Conn) : Input → Prop
  | .packet s _ => s.isRst = false → (s.isAck = true → SameAck a c.tcb s.ack) ∧
      (¬Leaves c s → Same r s.seq c.tcb.rcvNxt)
  | .alwaysEvent _ _ => c.tcb.state ≠ .synRecvd →
      SameWrite a r (if c.trace.sent = [] then 0 else r) c.tcb
  | _ => True

instance (a r : Uint) (c : Conn) : (i : Input) → Decidable (SameSide a r c i)
  | .packet _ _ | .alwaysEvent _ _ => inferInstanceAs (Decidable (_ → _))
  | .timeEvent _ | .fdEvent _ _ | .call _ | .others _ => isTrue trivial

theorem receive_shift (σ : Offsets) (c : Conn) (s : Segment) :
    (c.shift σ).receive (s.shift σ.rcv σ.snd) = (c.receive s).shift σ := by
  have hreceived : c.trace.received.map (Segment.shift σ.rcv σ.snd) ++ [s.shift σ.rcv σ.snd] =
      (c.trace.received ++ [s]).map (Segment.shift σ.rcv σ.snd) := by simp
  exact congrArg (fun l => { c.shift σ with trace := { (c.shift σ).trace with received := l } })
    hreceived

theorem handleTcp_shift (hsuits : Suits σ c)
    (hside : s.isRst = false → (s.isAck = true → SameAck σ.snd c.tcb s.ack) ∧
      (¬Leaves c s → Same σ.rcv s.seq c.tcb.rcvNxt)) (htcp : handleTcp c s now = some c') :
    handleTcp (c.shift σ) (s.shift σ.rcv σ.snd) now = some (c'.shift σ) := by
  have hmark : c.tcb.eTimeout.isSome = true → retransmits c.tcb.state = true → σ.mark = σ.snd := by
    intro hsome hs
    refine hsuits.mark.resolve_right ?_
    rintro (htimer | hwait)
    · rw [htimer] at hsome
      cases hsome
    · rw [hwait] at hs
      cases hs
  have hflag : (s.shift σ.rcv σ.snd).isRst = s.isRst := rfl
  rw [handleTcp, hflag]
  rcases handleTcp_cases htcp with ⟨hrst, hreset⟩ | ⟨hrst, hdone⟩ | ⟨hrst, x, hnext, hrest⟩
  · rw [if_pos hrst, handleRst_shift, hreset]
    rfl
  · rw [if_neg (by simp [hrst]), handleAck_shift (hside hrst).1 hmark, hdone]
    rfl
  · obtain ⟨hack, hseq⟩ := hside hrst
    obtain ⟨-, hrcv, hearly⟩ := handleAck_window hnext
    have hsame : (s.shift σ.rcv σ.snd).seq < (x.shift σ).tcb.rcvNxt ↔ s.seq < x.tcb.rcvNxt := by
      have hrcv' : x.tcb.rcvNxt = c.tcb.rcvNxt := hrcv
      have hcompare := hseq (hearly x rfl)
      rw [← hrcv'] at hcompare
      exact hcompare
    rw [if_neg (by simp [hrst]), handleAck_shift hack hmark, hnext]
    dsimp only [Option.map_some, Option.bind_some, Flow.shift]
    rcases hrest with ⟨hold, rfl⟩ | ⟨hnew, hdata⟩
    · rw [if_pos (hsame.mpr hold), handleOld_shift]
    · rw [if_neg (mt hsame.mp hnew), handleWindow_shift, handleData_shift, hdata]
      rfl

theorem Suits.handleTcp (hsuits : Suits σ c) (htcp : handleTcp (c.receive s) s now = some c') :
    Suits σ c' := by
  refine hsuits.of_eq ?_ fun hun => Untimed.handleTcp (c := c.receive s) hun htcp
  have hout : c'.outlet.sent = c.outlet.sent := by
    rcases handleTcp_arrived htcp with ⟨-, heq⟩ | ⟨-, o, hsettled, hmoved⟩
    · rw [heq]
      rfl
    · obtain ⟨b, st, una, nxt, buf, heq⟩ := Outlet.packet_eq hsettled hmoved
      rw [heq]
      rfl
  exact hout

/-- The moved connection does the same with the moved input. -/
def Tracks (σ : Offsets) (c' : Conn) (res : Option Conn) : Prop :=
  ∃ σ', σ'.snd = σ.snd ∧ σ'.rcv = σ.rcv ∧ Suits σ' c' ∧ res = some (c'.shift σ')

theorem Tracks.packet (hsuits : Suits σ c) (hside : SameSide σ.snd σ.rcv c (.packet s now))
    (htcp : Ptrtd.handleTcp (c.receive s) s now = some c') :
    Tracks σ c' (Ptrtd.handleTcp ((c.shift σ).receive (s.shift σ.rcv σ.snd))
      (s.shift σ.rcv σ.snd) now) := by
  refine ⟨σ, rfl, rfl, hsuits.handleTcp htcp, ?_⟩
  rw [receive_shift]
  refine handleTcp_shift (hsuits.of_eq rfl id) (fun hrst => ⟨(hside hrst).1, fun hno => ?_⟩) htcp
  refine (hside hrst).2 fun hleaves => hno ?_
  have hout : (c.receive s).outlet = c.outlet.receive s := rfl
  rw [Leaves, hout, (ack_receive c s).1, (ack_receive c s).2]
  exact hleaves

theorem Tracks.timeEvent {addr : ℕ} (hsuits : Suits σ c) (hrun : runTimeEvent c addr = some c') :
    Tracks σ c' (runTimeEvent (c.shift σ) addr) := by
  have hfind : findEvent (c.shift σ).ev.timeEventList addr (.tcb (c.shift σ).self) =
      findEvent c.ev.timeEventList addr (.tcb c.self) := rfl
  obtain ⟨e, he, hrun⟩ := Option.bind_eq_some_iff.mp hrun
  rw [runTimeEvent, hfind, he, Option.bind_some]
  dsimp only at hrun ⊢
  cases hfunc : e.func with
  | tcpTimeout =>
      rw [hfunc] at hrun
      cases hrun
      refine ⟨σ, rfl, rfl, ?_, ?_⟩
      · obtain ⟨l, n, x, w, -, -, -, heq⟩ := tcpTimeout_eq c
        rw [heq]
        exact hsuits.of_eq rfl fun _ => .inl rfl
      · dsimp only
        rw [tcpTimeout_shift]
        rfl
  | tcpRemove =>
      rw [hfunc] at hrun
      cases hrun
      exact ⟨σ, rfl, rfl, hsuits.of_eq rfl id, rfl⟩
  | doTcbWrite | handleFdCanRead | handleFdCanWrite | handleFdDidConnect | removeUdpMap
  | handleUdpRead | ifReadCallback =>
      rw [hfunc] at hrun
      cases hrun

theorem Tracks.fdEvent {addr : ℕ} {io : Io} (hsuits : Suits σ c) (hwf : WellFormed c)
    (hrun : runFdEvent c addr io = some c') : Tracks σ c' (runFdEvent (c.shift σ) addr io) := by
  have hfind : findEvent (c.shift σ).ev.fdEventList addr (.tcpMap (c.shift σ).self) =
      findEvent c.ev.fdEventList addr (.tcpMap c.self) := rfl
  have hattached : c.map.isSome = true → c.tcb.state = .synRecvd ∨ c.tcb.state = .established :=
    hwf.attached
  have hfinish : ∀ {x : Conn} {b : Bool} {res : Option (Conn × Bool)}, Moves σ x b res →
      Tracks σ (if b then x else { x with ev := removeFdEvent x.ev addr })
        (res.map fun q => if q.2 then q.1 else { q.1 with ev := removeFdEvent q.1.ev addr }) := by
    rintro x b res ⟨σ', hsnd, hrcv, hf, rfl⟩
    refine ⟨σ', hsnd, hrcv, ?_, ?_⟩
    · cases b with
      | true => exact hf
      | false => exact hf.of_eq rfl id
    · cases b <;> rfl
  obtain ⟨e, he, hrun⟩ := Option.bind_eq_some_iff.mp hrun
  rw [runFdEvent, hfind, he, Option.bind_some]
  dsimp only at hrun ⊢
  split at hrun
  · obtain ⟨⟨x, b⟩, hx, rfl⟩ := Option.map_eq_some_iff.mp hrun
    exact hfinish (handleFdCanRead_shift hsuits hattached hx)
  · obtain ⟨⟨x, b⟩, hx, rfl⟩ := Option.map_eq_some_iff.mp hrun
    exact hfinish (handleFdCanWrite_shift hsuits hattached hx)
  · obtain ⟨⟨x, b⟩, hx, rfl⟩ := Option.map_eq_some_iff.mp hrun
    exact hfinish (handleFdDidConnect_shift hsuits hattached hx)
  · cases hrun

theorem Tracks.alwaysEvent {addr : ℕ} (hsuits : Suits σ c)
    (hside : SameSide σ.snd σ.rcv c (.alwaysEvent addr now))
    (hrun : runAlwaysEvent c addr now = some c') :
    Tracks σ c' (runAlwaysEvent (c.shift σ) addr now) := by
  have hfind : findEvent (c.shift σ).ev.alwaysEventList addr (.tcb (c.shift σ).self) =
      findEvent c.ev.alwaysEventList addr (.tcb c.self) := rfl
  obtain ⟨e, he, hrun⟩ := Option.bind_eq_some_iff.mp hrun
  rw [runAlwaysEvent, hfind, he, Option.bind_some]
  split at hrun
  · obtain ⟨⟨x, b⟩, hx, rfl⟩ := Option.map_eq_some_iff.mp hrun
    have hsame : c.tcb.state ≠ .synRecvd → SameWrite σ.snd σ.rcv σ.acked c.tcb := by
      rw [hsuits.acked]
      exact hside
    obtain ⟨σ', hwrite, hsnd, hrcv, hf⟩ := doTcbWrite_shift hsuits hsame hx
    refine ⟨σ', hsnd, hrcv, ?_, ?_⟩
    · cases b with
      | true => exact hf
      | false => exact hf.of_eq rfl id
    · dsimp only
      rw [hwrite]
      cases b <;> rfl
  · cases hrun

theorem Tracks.call {x : AppCall} (hsuits : Suits σ c) (hwf : WellFormed c)
    (hcb : c.tcb.cb = some .otherCb) (hcall : CallExact c x c') :
    Tracks σ c' (appCall (c.shift σ) x) := by
  have hstate : c.tcb.state = .synRecvd ∨ c.tcb.state = .established :=
    hwf.cb.mp (by rw [hcb]; rfl)
  cases hcall with
  | accept hsyn hfirst =>
      have hok : (c.shift σ).tcb.state = .synRecvd ∧
          (c.shift σ).trace.acceptCalled = false := ⟨hsyn, hfirst⟩
      obtain ⟨l, n, e, -, heq⟩ := tcpAccept_eq c
      refine ⟨σ, rfl, rfl, ?_, ?_⟩
      · rw [heq]
        exact hsuits.of_eq rfl id
      · rw [appCall, if_pos hok, tcpAccept_shift]
  | @send d _ hest hfits hsend =>
      have hok : (c.shift σ).tcb.state = .established ∧
          (d.length : ℤ) ≤ tcpGetOutputSpace (c.shift σ).tcb := ⟨hest, hfits⟩
      refine ⟨σ, rfl, rfl, hsuits.tcpSend hsend, ?_⟩
      rw [appCall, if_pos hok, tcpSend_shift, hsend]
      rfl
  | read hread =>
      refine ⟨σ, rfl, rfl, hsuits.tcpRead hread, ?_⟩
      rw [appCall, tcpRead_shift, hread]
      rfl
  | @close hard =>
      refine ⟨σ.closed c hard, ?_, ?_, ?_, congrArg some (tcpClose_shift σ c hard)⟩
      · rw [Offsets.closed]
        split <;> rfl
      · rw [Offsets.closed]
        split <;> rfl
      · rw [Offsets.closed]
        split
        · next hreset =>
            obtain ⟨ev, heq⟩ := tcpClose_reset hreset
            rw [heq]
            refine hsuits.of_sent ?_ rfl rfl (.inr ⟨rfl, id⟩)
            exact List.append_ne_nil_of_right_ne_nil _ (List.cons_ne_nil _ _)
        · next hfin =>
            obtain ⟨hsoft, hsyn⟩ := not_or.mp hfin
            rw [Bool.not_eq_true] at hsoft
            subst hsoft
            obtain ⟨l, n, e, -, heq⟩ := tcpClose_fin hsyn
            rw [heq]
            refine hsuits.of_eq rfl fun hun => .inl ?_
            rcases hun with htimer | hwait
            · exact htimer
            · rcases hstate with hs | hs <;> rw [hwait] at hs <;> cases hs

/-- One step with moved numbers. -/
theorem step_shift (hsuits : Suits σ c) (hwf : WellFormed c) (hside : SameSide σ.snd σ.rcv c i)
    (hstep : step c i = some c') : Tracks σ c' (step (c.shift σ) (i.shift σ.snd σ.rcv)) := by
  obtain ⟨hlive, hexact⟩ := step_exact hstep
  have hlive' : (c.shift σ).live = true := hlive
  unfold Ptrtd.step
  rw [if_pos hlive']
  cases hexact with
  | packet htcp => exact .packet hsuits hside htcp
  | timeEvent hrun => exact .timeEvent hsuits hrun
  | fdEvent hrun => exact .fdEvent hsuits hwf hrun
  | alwaysEvent hrun => exact .alwaysEvent hsuits hside hrun
  | @call x _ hcb hcalled =>
      have hcb' : (c.shift σ).tcb.cb = some .otherCb := hcb
      have hcall : Tracks σ c' (appCall (c.shift σ) x) := .call hsuits hwf hcb hcalled
      have hif : (if (c.shift σ).tcb.cb = some .otherCb then appCall (c.shift σ) x else none) =
          appCall (c.shift σ) x := if_pos hcb'
      rw [← hif] at hcall
      exact hcall
  | others hev =>
      have hev' : othersChanged (c.shift σ) _ := hev
      refine ⟨σ, rfl, rfl, hsuits.of_eq rfl id, ?_⟩
      exact if_pos hev'

/-! ## Runs -/

theorem exec_shift {is : List Input} (hsuits : Suits σ c) (hwf : WellFormed c)
    (hexec : Transition.exec step (SameSide σ.snd σ.rcv) c is = some c') :
    Tracks σ c' (Transition.exec step Transition.Always (c.shift σ)
      (is.map (Input.shift σ.snd σ.rcv))) := by
  induction is generalizing σ c with
  | nil =>
      cases hexec
      exact ⟨σ, rfl, rfl, hsuits, rfl⟩
  | cons i is ih =>
      rw [Transition.exec] at hexec
      split at hexec
      · next hside =>
          obtain ⟨x, hstep, hrest⟩ := Option.bind_eq_some_iff.mp hexec
          obtain ⟨σ', hsnd, hrcv, hf, hstep'⟩ := step_shift hsuits hwf hside hstep
          obtain ⟨hlive, hstepped⟩ := step_cases hstep
          rw [← hsnd, ← hrcv] at hrest
          obtain ⟨σ'', hsnd', hrcv', hf', hrest'⟩ := ih hf (hwf.stepped hlive hstepped) hrest
          refine ⟨σ'', hsnd'.trans hsnd, hrcv'.trans hrcv, hf', ?_⟩
          have halways : Transition.Always (c.shift σ) (i.shift σ.snd σ.rcv) := trivial
          rw [List.map_cons, Transition.exec, if_pos halways, hstep', Option.bind_some, ← hsnd,
            ← hrcv]
          exact hrest'
      · cases hexec

/-- Whether a connection is well-formed does not depend on our own numbers. -/
theorem WellFormed.of_shift (h : WellFormed (c.shift σ)) (hrcv : σ.rcv = 0) : WellFormed c := by
  have hbuf : (c.shift σ).tcb.inbuf = c.tcb.inbuf := by
    have hseq : c.tcb.inbuf.wSeq + σ.rcv = c.tcb.inbuf.wSeq := by rw [hrcv, add_zero]
    exact congrArg (fun x => { c.tcb.inbuf with wSeq := x }) hseq
  have hread : (c.shift σ).tcb.readSeq = c.tcb.readSeq := by
    have hseq : c.tcb.readSeq + σ.rcv = c.tcb.readSeq := by rw [hrcv, add_zero]
    exact hseq
  refine ⟨h.cb, h.map, h.synTime, h.synFd, ?_, h.inSize, h.synIn⟩
  rw [← hbuf, ← hread]
  exact h.inbuf

/-- A new connection is well-formed whatever its initial sequence number is. -/
theorem WellFormed.of_synAt {self : ℕ} {app : TcpCallback} {iss : Uint} {ev : EventLists}
    {syn : Segment} {res : ConnectResult} (hfresh : freshAddr self ev)
    (h : handleSynAt self app iss ev syn res = some c) : WellFormed c := by
  -- move it to the daemon's first initial sequence number
  obtain ⟨k, hk⟩ : ∃ k, k = nextIsn 0 - iss := ⟨_, rfl⟩
  obtain ⟨σ, -, hrcv, -, hstart⟩ := handleSynAt_shift (a := k) (r := 0) h
  have hiss : iss + k = nextIsn 0 := by rw [hk, add_sub_cancel]
  rw [hiss, ← handleSyn_eq] at hstart
  have hwf : WellFormed (c.shift σ) := .of_start ⟨self, 0, ev, _, res, hfresh, hstart⟩
  exact hwf.of_shift hrcv

/-- Moving our sequence numbers by `a` and the peer's by `r` moves the whole run, in every run
whose comparisons are not turned around. -/
theorem shifted_of_sameSide {self : ℕ} {app : TcpCallback} {iss a r : Uint} {ev : EventLists}
    {syn : Segment} {res : ConnectResult} {is : List Input} {c₀ c : Conn}
    (hfresh : freshAddr self ev) (hstart : handleSynAt self app iss ev syn res = some c₀)
    (hexec : Transition.exec step (SameSide a r) c₀ is = some c) :
    ∃ c₁ σ, handleSynAt self app (iss + a) ev (syn.shift r a) res = some c₁ ∧
      Transition.exec step Transition.Always c₁ (is.map (Input.shift a r)) = some (c.shift σ) ∧
      σ.snd = a ∧ σ.rcv = r := by
  obtain ⟨σ, hsnd, hrcv, hsuits, hstart'⟩ := handleSynAt_shift (a := a) (r := r) hstart
  have hwf := WellFormed.of_synAt hfresh hstart
  subst hsnd hrcv
  obtain ⟨σ', hsnd, hrcv, -, hexec'⟩ := exec_shift hsuits hwf hexec
  exact ⟨c₀.shift σ, σ', hstart', hexec', hsnd, hrcv⟩

/-- The handshake and three bytes, which are acknowledged. -/
def shortRun : List Input :=
  [.alwaysEvent 0 ⟨0, 0⟩, client 1001 0x10001 0x10 8 [], client 1001 0x10001 0x10 8 [1, 2, 3],
    .alwaysEvent 2 ⟨0, 0⟩]

/-- A run whose numbers are moved without touching the end of the space. -/
theorem shifted_of_sameSide_bytes : ∃ (c c₁ : Conn) (σ : Offsets),
    handleSynAt 0 .tcpMapCb (0x10000 + 0x20000) ⟨[], [], [], 0⟩ ((clientSyn 8).shift 5 0x20000)
      (.connected 5) = some c₁ ∧
    Transition.exec step Transition.Always c₁ (shortRun.map (Input.shift 0x20000 5)) =
      some (c.shift σ) ∧ σ.snd = 0x20000 ∧ σ.rcv = 5 ∧ c.trace.stored = [1, 2, 3] := by
  have hrun : (handleSynAt 0 .tcpMapCb 0x10000 ⟨[], [], [], 0⟩ (clientSyn 8) (.connected 5)).any
      (fun c₀ => (Transition.exec step (SameSide 0x20000 5) c₀ shortRun).any
        (fun c => c.trace.stored = [1, 2, 3])) = true := by
    decide +kernel
  obtain ⟨c₀, hstart, hc₀⟩ := (Option.any_eq_true _ _).mp hrun
  obtain ⟨c, hexec, hc⟩ := (Option.any_eq_true _ _).mp hc₀
  obtain ⟨c₁, σ, hstart', hexec', hsnd, hrcv⟩ :=
    shifted_of_sameSide (freshAddr_empty 0 0) hstart hexec
  exact ⟨c, c₁, σ, hstart', hexec', hsnd, hrcv, of_decide_eq_true hc⟩

/-- The connection that the client's SYN makes, its numbers moved by `r` and ours by `a`. -/
def movedStart (a r : Uint) : Option Conn :=
  handleSynAt 0 .tcpMapCb (0x10000 + a) ⟨[], [], [], 0⟩ ((clientSyn 8).shift r a) (.connected 5)

/-- Two runs with the same inputs, the second with moved numbers. -/
def BothRun (a r : Uint) (is : List Input) (c c' : Conn) : Prop :=
  ∃ c₀ c₁, movedStart 0 0 = some c₀ ∧ movedStart a r = some c₁ ∧
    Transition.exec step Transition.Always c₀ is = some c ∧
    Transition.exec step Transition.Always c₁ (is.map (Input.shift a r)) = some c'

def runBoth (a r : Uint) (is : List Input) (p : Conn → Conn → Bool) : Bool :=
  ((movedStart 0 0).bind fun c => Transition.exec step Transition.Always c is).any fun c =>
    ((movedStart a r).bind fun c₁ =>
      Transition.exec step Transition.Always c₁ (is.map (Input.shift a r))).any (p c)

theorem bothRun_of_runBoth {is : List Input} {p : Conn → Conn → Bool}
    (h : runBoth a r is p = true) : ∃ c c', BothRun a r is c c' ∧ p c c' = true := by
  obtain ⟨c, hc, h⟩ := (Option.any_eq_true _ _).mp h
  obtain ⟨c', hc', hp⟩ := (Option.any_eq_true _ _).mp h
  obtain ⟨c₀, hstart, hexec⟩ := Option.bind_eq_some_iff.mp hc
  obtain ⟨c₁, hstart', hexec'⟩ := Option.bind_eq_some_iff.mp hc'
  exact ⟨c, c', ⟨c₀, c₁, hstart, hstart', hexec, hexec'⟩, hp⟩

/-- With the peer's numbers just before the end of the space, the three bytes are never
acknowledged, because `last_acked` is then the larger number. With our initial sequence number
at the end, the ACK of the SYN is no new one and the handshake never ends. -/
theorem turned_around_at_wrap :
    (∃ c c', BothRun 0 (0xFFFFFFFD - 1000) shortRun c c' ∧
      c.trace.sent.length = 2 ∧ c'.trace.sent.length = 1) ∧
    ∃ c c', BothRun (0xFFFFFFFF - 0x10000) 0 (shortRun.take 2) c c' ∧
      c.tcb.state = .established ∧ c'.tcb.state = .synRecvd := by
  constructor
  · have hrun : runBoth 0 (0xFFFFFFFD - 1000) shortRun
        (fun c c' => c.trace.sent.length = 2 ∧ c'.trace.sent.length = 1) = true := by
      decide +kernel
    obtain ⟨c, c', hboth, hc⟩ := bothRun_of_runBoth hrun
    exact ⟨c, c', hboth, of_decide_eq_true hc⟩
  · have hrun : runBoth (0xFFFFFFFF - 0x10000) 0 (shortRun.take 2)
        (fun c c' => c.tcb.state = .established ∧ c'.tcb.state = .synRecvd) = true := by
      decide +kernel
    obtain ⟨c, c', hboth, hc⟩ := bothRun_of_runBoth hrun
    exact ⟨c, c', hboth, of_decide_eq_true hc⟩

end Ptrtd
