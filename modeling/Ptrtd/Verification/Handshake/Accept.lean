import Ptrtd.Verification.Session.History
import Ptrtd.Verification.Session.Schedule

/-! # The application accepts once

In `SYN_RECVD` the only socket event is the pending `connect`, whose callback accepts the
connection, and it is gone once that has happened. `do_tcb_write` sends one SYN/ACK each
time it is scheduled: by the call of `tcp_accept`, or by a window that opens. -/

namespace Ptrtd

open Registry

variable {a c c' : Conn} {s : Segment} {now : Timeval} {i : Input}

/-- In `SYN_RECVD` at most one socket event is pending, and none after `tcp_accept` or for an
application other than the relay. -/
def AcceptOnce (c : Conn) : Prop :=
  c.live = true → c.tcb.state = .synRecvd →
    ∃ p, Points Event.addr c.owns c.ev.fdEventList p ∧
      (c.trace.acceptCalled = true ∨ c.tcb.cb = some .otherCb → p = none)

theorem AcceptOnce.of_eq (h : AcceptOnce c) (hself : c'.self = c.self)
    (hlive : c'.live = true → c.live = true)
    (hstate : c'.tcb.state = .synRecvd → c.tcb.state = .synRecvd)
    (hfd : c'.ev.fdEventList = c.ev.fdEventList)
    (haccept : c'.trace.acceptCalled = c.trace.acceptCalled) (hcb : c'.tcb.cb = c.tcb.cb) :
    AcceptOnce c' := by
  intro hl hs
  have howns : c'.owns = c.owns := owns_congr hself
  rw [howns, hfd, haccept, hcb]
  exact h (hlive hl) (hstate hs)

theorem AcceptOnce.of_not_syn (h : c.tcb.state ≠ .synRecvd) : AcceptOnce c :=
  fun _ hs => absurd hs h

theorem AcceptOnce.of_dead (h : c.live = false) : AcceptOnce c :=
  fun hl => absurd (h.symm.trans hl) nofun

/-! ## Segments -/

/-- What a segment does while the handshake goes on. -/
structure StillOpening (c c' : Conn) : Prop where
  self : c'.self = c.self
  live : c'.live = c.live
  state : c.tcb.state = .synRecvd
  fd : c'.ev.fdEventList = c.ev.fdEventList
  accept : c'.trace.acceptCalled = c.trace.acceptCalled
  cb : c'.tcb.cb = c.tcb.cb

theorem handleAck_opening {f : Flow} (h : handleAck c s now = some f)
    (hsyn : f.conn.tcb.state = .synRecvd) (hlive : f.conn.live = true) :
    StillOpening c f.conn ∧ f.conn.tcb.eTcbSend = c.tcb.eTcbSend := by
  by_cases hstate : c.tcb.state = .synRecvd
  · have hsame : StillOpening c c := ⟨rfl, rfl, hstate, rfl, rfl, rfl⟩
    rcases handleAck_cases h with ⟨-, rfl⟩ | ⟨-, b, hnew, hall⟩
    · exact ⟨hsame, rfl⟩
    · have hb : (StillOpening c b ∧ b.tcb.eTcbSend = c.tcb.eTcbSend) ∧
          b.tcb.state = .synRecvd := by
        rcases hnew with ⟨-, hnew⟩ | ⟨-, rfl⟩
        · obtain ⟨m, ev, r, d, o, e, k, w, -, -, hev, rfl⟩ := handleNewAck_eq hnew
          obtain rfl := hev hstate
          exact ⟨⟨⟨rfl, rfl, hstate, rfl, rfl, rfl⟩, rfl⟩, hstate⟩
        · exact ⟨⟨hsame, rfl⟩, hstate⟩
      obtain ⟨hb, hbs⟩ := hb
      rcases hall with ⟨-, hall⟩ | ⟨-, rfl⟩
      · cases handleAllAcked_effect hall with
        | opened _ _ hchange =>
            obtain ⟨m, l, n, -, rfl⟩ := hchange
            cases hsyn
        | deleted hs => exact absurd (hbs.symm.trans hs) nofun
        | finAcked hs => exact absurd (hbs.symm.trans hs) nofun
        | bothClosed hs => exact absurd (hbs.symm.trans hs) nofun
        | stillClosing hs => exact absurd (hbs.symm.trans hs) nofun
        | other hs => exact absurd hbs hs
      · exact hb
  · exact absurd hsyn ((Later.handleAck h).state hstate)

/-- A window that opens schedules the write event. -/
theorem handleWindow_pending (c : Conn) (s : Segment)
    (h : (handleWindow c s).tcb.eTcbSend.isSome = true) :
    c.tcb.eTcbSend.isSome = true ∨ windowSize (handleWindow c s).tcb > 0 := by
  rw [handleWindow] at h ⊢
  dsimp only at h ⊢
  split
  · split
    · next hopen =>
        obtain ⟨l, n, e, -, heq⟩ := markForIfWrite_eq
          { c with tcb := windowUpdate { c.tcb with sndWnd := s.wnd.setWidth 32 } }
        rw [heq]
        exact .inr hopen
    · next hclosed hstill =>
        rw [if_pos hclosed, if_neg hstill] at h
        exact .inl h
  · next hopen =>
      rw [if_neg hopen] at h
      exact .inl h

/-- A segment that leaves the block in `SYN_RECVD` schedules the write event only if the window
is open. -/
theorem handleTcp_opening (h : handleTcp c s now = some c') (hsyn : c'.tcb.state = .synRecvd)
    (hlive : c'.live = true) : StillOpening c c' ∧
      (c'.tcb.eTcbSend.isSome = true → c.tcb.eTcbSend.isSome = true ∨ windowSize c'.tcb > 0) := by
  rcases handleTcp_cases h with ⟨-, hrst⟩ | ⟨-, hdone⟩ | ⟨-, b, hnext, hrest⟩
  · obtain ⟨m, ev, d, -, -, rfl⟩ := handleRst_eq hrst
    cases hlive
  · obtain ⟨hopening, he⟩ := handleAck_opening hdone hsyn hlive
    exact ⟨hopening, fun hs => .inl (he ▸ hs)⟩
  · rcases hrest with ⟨-, rfl⟩ | ⟨-, hdata⟩
    · have hb : b.tcb.state = .synRecvd := by
        by_contra hs
        exact (Later.handleOld b).state hs hsyn
      have hsame : handleOld b = b := if_pos hb
      rw [hsame] at hlive ⊢
      obtain ⟨hopening, he⟩ := handleAck_opening hnext hb hlive
      exact ⟨hopening, fun hs => .inl (he ▸ hs)⟩
    · have hw : (handleWindow b s).tcb.state = .synRecvd := by
        by_contra hs
        exact (Later.handleData hdata).state hs hsyn
      have hpending := handleWindow_pending b s
      have hignored : c' = handleWindow b s := by
        cases handleData_effect hdata with
        | ignored => rfl
        | data _ _ hs => rw [hw] at hs; rcases hs with hs | hs | hs <;> cases hs
        | finWait2 hs => exact absurd (hw.symm.trans hs) nofun
        | finWait1 hs => exact absurd (hw.symm.trans hs) nofun
        | closeWait hs => exact absurd (hw.symm.trans hs) nofun
      rw [hignored] at hlive ⊢
      obtain ⟨l, n, e, heq⟩ := handleWindow_eq b s
      rw [heq] at hlive hw hpending ⊢
      obtain ⟨hb, he⟩ := handleAck_opening hnext hw hlive
      exact ⟨⟨hb.self, hb.live, hb.state, hb.fd, hb.accept, hb.cb⟩,
        fun hs => (hpending hs).imp_left fun hold => he ▸ hold⟩

/-! ## Steps -/

theorem AcceptOnce.tcpAccept (h : c.ev.fdEventList.filter c.owns = []) :
    AcceptOnce (tcpAccept c) := by
  intro _ _
  obtain ⟨l, n, e, -, heq⟩ := tcpAccept_eq c
  rw [heq]
  exact ⟨none, points_none.mpr h, fun _ => rfl⟩

/-- Only the callback of the pending `connect` accepts, and its event goes. -/
theorem AcceptOnce.fdEvent {addr : ℕ} {io : Io} (h : AcceptOnce c) (hwf : WellFormed c)
    (hlive : c.live = true) (hrun : runFdEvent c addr io = some c') : AcceptOnce c' := by
  by_cases hsyn : c.tcb.state = .synRecvd
  · obtain ⟨e, he, rfl, hdata, b, again, rfl, hcases⟩ := runFdEvent_cases hrun
    have hown := owns_of_tcpMap hdata
    have hfunc := hwf.synFd hlive hsyn e he hown
    obtain ⟨p, hp, -⟩ := h hlive hsyn
    obtain rfl := hp.eq_some he hown
    rcases hcases with ⟨r, hf, -⟩ | ⟨r, hf, -⟩ | ⟨ok, -, -, hconn⟩
    · exact absurd (hfunc.symm.trans hf) nofun
    · exact absurd (hfunc.symm.trans hf) nofun
    · obtain ⟨rfl, m, -, ⟨-, rfl⟩ | ⟨-, hclose⟩⟩ := handleFdDidConnect_cases hconn
      · intro _ _
        obtain ⟨l, n, w, -, heq⟩ := tcpAccept_eq
          { c with map := some { m with eFdWrite := none } }
        rw [heq]
        exact ⟨none, hp.remove, fun _ => rfl⟩
      · cases closeBoth_effect hclose with
        | reset => exact .of_dead rfl
        | fin hs => exact absurd hsyn hs
  · obtain ⟨-, hstep⟩ : True ∧ Stepped c (.fdEvent addr io) c' :=
      ⟨trivial, runFdEvent_steps hrun⟩
    exact .of_not_syn ((Later.stepped hstep).state hsyn)

theorem AcceptOnce.call {k : AppCall} (h : AcceptOnce c)
    (hlive : c.live = true) (hcb : c.tcb.cb = some .otherCb) (hcall : CallExact c k c') :
    AcceptOnce c' := by
  cases hcall with
  | accept hsyn _ =>
      obtain ⟨p, hp, hnone⟩ := h hlive hsyn
      obtain rfl := hnone (.inr hcb)
      exact .tcpAccept (points_none.mp hp)
  | send _ _ hsend =>
      obtain ⟨r, n, l, m, e, -, rfl⟩ := tcpSend_eq hsend
      exact h.of_eq rfl id id rfl rfl rfl
  | read hread =>
      obtain ⟨l, m, e, la, -, rfl⟩ := tcpRead_eq hread
      exact h.of_eq rfl id id rfl rfl rfl
  | @close hard =>
      have hlater := (Later.tcpClose c hard).state
      generalize hclosed : tcpClose c hard = a at hlater ⊢
      cases tcpClose_cases hclosed with
      | reset => exact .of_dead rfl
      | fin hsyn => exact .of_not_syn (hlater hsyn)

theorem AcceptOnce.step (h : AcceptOnce c) (hwf : WellFormed c) (hstep : step c i = some c') :
    AcceptOnce c' := by
  obtain ⟨hlive, hexact⟩ := step_exact hstep
  cases hexact with
  | @packet s now _ htcp =>
      intro hl hs
      have hr : AcceptOnce (c.receive s) := h.of_eq rfl id id rfl rfl rfl
      obtain ⟨hopening, -⟩ := handleTcp_opening htcp hs hl
      exact hr.of_eq hopening.self (fun _ => hlive) (fun _ => hopening.state) hopening.fd
        hopening.accept hopening.cb hl hs
  | timeEvent hrun =>
      obtain ⟨e, he, -, hdata, ⟨-, rfl⟩ | ⟨-, rfl⟩⟩ := runTimeEvent_cases hrun
      · have hpast := hwf.timer_state hlive he (owns_of_tcb hdata)
        exact .of_not_syn ((Later.tcpTimeout c).state hpast)
      · exact .of_dead rfl
  | fdEvent hrun => exact h.fdEvent hwf hlive hrun
  | @alwaysEvent addr now _ hrun =>
      obtain ⟨e, -, -, -, b, again, hw, rfl⟩ := runAlwaysEvent_cases hrun
      have hb : AcceptOnce b := by
        cases hw with
        | syn => exact h.of_eq rfl id id rfl rfl rfl
        | nothing => exact h.of_eq rfl id id rfl rfl rfl
        | @segment data d _ hpast _ hd _ =>
            obtain ⟨l, n, x, k, m, r, w, la, heq⟩ := emitSegment_eq c data _ now
            rw [hd, heq]
            exact .of_not_syn hpast
      split
      · exact hb
      · exact hb.of_eq rfl id id rfl rfl rfl
  | call hcb hcall => exact h.call hlive hcb hcall
  | others hev =>
      intro _ hs
      obtain ⟨p, hp, hnone⟩ := h hlive hs
      exact ⟨p, hp.congr hev.2.2.1, hnone⟩

/-! ## Runs -/

theorem AcceptOnce.of_start {app : TcpCallback} (h : Start app c) : AcceptOnce c := by
  obtain ⟨self, isn, ev, syn, hfresh, hopen⟩ := start_cases h
  have hempty : ev.fdEventList.filter (Conn.fresh self app isn ev syn).owns = [] :=
    (filter_owns_fresh hfresh).2.1
  cases hopen with
  | other => exact fun _ _ => ⟨none, points_none.mpr hempty, fun _ => rfl⟩
  | accepted => exact .tcpAccept hempty
  | connecting hcb =>
      intro _ _
      refine ⟨some ev.next, (points_none.mpr hempty).add (owns_of_tcpMap rfl) (.refl _), ?_⟩
      rintro (hs | hs)
      · cases hs
      · exact absurd (hcb.symm.trans hs) nofun
  | failed _ hclose =>
      cases hclose with
      | reset => exact .of_dead rfl
      | fin hs => exact absurd rfl hs

theorem AcceptOnce.of_reached {ok : Conn → Input → Prop} (h : Reached ok c) : AcceptOnce c :=
  h.run_invariant (fun _ _ => .of_start) fun _ _ _ hwf hinv _ hstep => hinv.step hwf hstep

/-- The callback that accepts a connection in `SYN_RECVD` is the first to do so. -/
theorem AcceptOnce.not_accepted {e : Event} (h : AcceptOnce c) (hlive : c.live = true)
    (hsyn : c.tcb.state = .synRecvd) (he : e ∈ c.ev.fdEventList) (hown : c.owns e = true) :
    c.trace.acceptCalled = false := by
  obtain ⟨p, hp, hnone⟩ := h hlive hsyn
  refine Bool.eq_false_iff.mpr fun haccept => ?_
  have hsome := hp.eq_some he hown
  rw [hnone (.inl haccept)] at hsome
  cases hsome

end Ptrtd
