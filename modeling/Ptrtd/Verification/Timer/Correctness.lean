import Ptrtd.Verification.Session.WellFormed

/-! # The retransmission timer

A block that retransmits has at most one time event, the timer that `e_timeout` points to.
Two sends arm no timer: the SYN/ACK, and a FIN without data while no timer is pending. As
long as no such FIN is sent, without a timer nothing is in flight. The proposition `p` says
that a run is free of them: the invariant is the same with and without that condition. -/

namespace Ptrtd

variable {p : Prop} {a c c' : Conn} {i : Input} {s : Segment} {now : Timeval}

/-- The pending time events of the connection. -/
def Conn.timers (c : Conn) : List Event := c.ev.timeEventList.filter c.owns

/-- A `tcp_timeout` event of this block is pending, and `e_timeout` points to it. -/
def Covered (c : Conn) : Prop :=
  ∃ e ∈ c.ev.timeEventList, c.tcb.eTimeout = some e.addr ∧ e.func = .tcpTimeout ∧
    e.data = .tcb c.self

instance (c : Conn) : Decidable (Covered c) := by
  unfold Covered
  infer_instance

/-- No timer is pending. -/
structure Unarmed (c : Conn) : Prop where
  timers : c.timers = []
  eTimeout : c.tcb.eTimeout = none

/-- Exactly the retransmission timer is pending. -/
def Armed (c : Conn) : Prop :=
  ∃ e, c.timers = [e] ∧ c.tcb.eTimeout = some e.addr ∧ e.func = .tcpTimeout ∧
    e.data = .tcb c.self

/-- The retransmission timer is pending, or no timer is and nothing is in flight. -/
def Guarded (p : Prop) (c : Conn) : Prop :=
  Unarmed c ∧ (p → c.tcb.sndUna = c.tcb.sndNxt) ∨ Armed c

/-- The states in which the block retransmits. -/
def retransmits : TcpState → Bool
  | .established | .finWait1 | .closing | .lastAck => true
  | _ => false

/-- The invariant of the timer. -/
structure TimerOk (p : Prop) (c : Conn) : Prop where
  syn : c.live = true → c.tcb.state = .synRecvd → Unarmed c
  guarded : c.live = true → retransmits c.tcb.state = true → Guarded p c

/-- `do_tcb_write` does not send a FIN without data while no timer is pending. -/
def NoBareFin (c : Conn) : Input → Prop
  | .alwaysEvent _ _ =>
      ¬(isClosingState c.tcb.state = true ∧ c.tcb.eTimeout = none ∧ windowSize c.tcb > 0 ∧
        rbAvail c.tcb.outbuf c.tcb.sndNxt = 0)
  | _ => True

instance (c : Conn) : (i : Input) → Decidable (NoBareFin c i)
  | .alwaysEvent _ _ => inferInstanceAs (Decidable (¬_))
  | .packet _ _ | .timeEvent _ | .fdEvent _ _ | .call _ | .others _ => isTrue trivial

/-! ## Lists of events -/

/-- The first event of its kind is the only one after it has been inserted. -/
theorem filter_insertTimeEvent {p : Event → Bool} {e : Event} {l : List Event}
    (hnone : l.filter p = []) (he : p e = true) : (insertTimeEvent e l).filter p = [e] := by
  induction l with
  | nil => simp [insertTimeEvent, he]
  | cons t rest ih =>
      obtain ⟨ht, hrest⟩ : ¬p t = true ∧ rest.filter p = [] := by
        simpa [List.filter_eq_nil_iff] using hnone
      rw [insertTimeEvent]
      split
      · simp [he, ht, hrest]
      · simp [ht, ih hrest]

theorem filter_delEvent {p : Event → Bool} {addr : ℕ} {l : List Event} :
    (delEvent addr l).filter p = delEvent addr (l.filter p) := by
  simp only [delEvent, List.filter_filter, Bool.and_comm]

theorem delEvent_singleton (e : Event) : delEvent e.addr [e] = [] := by simp [delEvent]

/-! ## Parts that leave the timer alone -/

theorem timers_eq (hself : c'.self = c.self)
    (htime : c'.ev.timeEventList = c.ev.timeEventList) : c'.timers = c.timers := by
  have howns : c'.owns = c.owns := owns_congr hself
  rw [Conn.timers, Conn.timers, htime, howns]

theorem Unarmed.of_eq (h : Unarmed c) (hself : c'.self = c.self)
    (htime : c'.ev.timeEventList = c.ev.timeEventList) (he : c'.tcb.eTimeout = c.tcb.eTimeout) :
    Unarmed c' :=
  ⟨(timers_eq hself htime).trans h.timers, he.trans h.eTimeout⟩

theorem Armed.of_eq (h : Armed c) (hself : c'.self = c.self)
    (htime : c'.ev.timeEventList = c.ev.timeEventList) (he : c'.tcb.eTimeout = c.tcb.eTimeout) :
    Armed c' := by
  obtain ⟨e, hlist, hptr, hfunc, hdata⟩ := h
  exact ⟨e, (timers_eq hself htime).trans hlist, he.trans hptr, hfunc,
    hdata.trans (by rw [hself])⟩

theorem Guarded.of_eq (h : Guarded p c) (hself : c'.self = c.self)
    (htime : c'.ev.timeEventList = c.ev.timeEventList) (he : c'.tcb.eTimeout = c.tcb.eTimeout)
    (huna : c'.tcb.sndUna = c.tcb.sndUna) (hnxt : c'.tcb.sndNxt = c.tcb.sndNxt) : Guarded p c' := by
  rcases h with ⟨hidle, heq⟩ | harmed
  · exact .inl ⟨hidle.of_eq hself htime he, fun hp => by rw [huna, hnxt, heq hp]⟩
  · exact .inr (harmed.of_eq hself htime he)

/-- A guarded block in a state past the handshake keeps the invariant. -/
theorem TimerOk.of_guarded (h : c.live = true → Guarded p c) (hsyn : c.tcb.state ≠ .synRecvd) :
    TimerOk p c :=
  ⟨fun _ hs => absurd hs hsyn, fun hl _ => h hl⟩

theorem TimerOk.of_dead (hdead : c.live = false) : TimerOk p c := by
  have hnot : ¬c.live = true := by simp [hdead]
  exact ⟨fun hl => absurd hl hnot, fun hl => absurd hl hnot⟩

/-- A state that neither retransmits nor waits for the handshake. -/
theorem TimerOk.of_rest (hsyn : c.tcb.state ≠ .synRecvd) (hrest : ¬retransmits c.tcb.state = true) :
    TimerOk p c :=
  ⟨fun _ hs => absurd hs hsyn, fun _ hs => absurd hs hrest⟩

theorem TimerOk.of_eq (h : TimerOk p c) (hlive : c'.live = c.live) (hself : c'.self = c.self)
    (hstate : c'.tcb.state = c.tcb.state) (htime : c'.ev.timeEventList = c.ev.timeEventList)
    (he : c'.tcb.eTimeout = c.tcb.eTimeout) (huna : c'.tcb.sndUna = c.tcb.sndUna)
    (hnxt : c'.tcb.sndNxt = c.tcb.sndNxt) : TimerOk p c' := by
  refine ⟨fun hl hs => ?_, fun hl hs => ?_⟩
  · exact (h.syn (hlive ▸ hl) (hstate ▸ hs)).of_eq hself htime he
  · exact (h.guarded (hlive ▸ hl) (hstate ▸ hs)).of_eq hself htime he huna hnxt

theorem TimerOk.markForIfWrite (h : TimerOk p c) : TimerOk p (markForIfWrite c) := by
  obtain ⟨l, n, e, -, heq⟩ := markForIfWrite_eq c
  rw [heq]
  exact h.of_eq rfl rfl rfl rfl rfl rfl rfl

/-! ## Arming and stopping -/

theorem setTimeout_armed (h : c.timers = []) : Armed (setTimeout c now) := by
  have hown : c.owns ⟨c.ev.next, .tcpTimeout, .tcb c.self,
      .time (timeFuture now (timeoutDelay c.tcb))⟩ = true := owns_of_tcb rfl
  exact ⟨_, filter_insertTimeEvent h hown, rfl, rfl, rfl⟩

theorem timers_removed {e : Event} (h : c.timers = [e]) :
    (c.ev.timeEventList.filter c.owns).filter (fun x => x.addr ≠ e.addr) = [] := by
  rw [Conn.timers] at h
  rw [h]
  exact delEvent_singleton e

/-- After an advance of `snd_una` the timer covers what is left in flight. -/
theorem ackTimer_guarded {ack : Uint} (h : Guarded p c) (hle : c.tcb.sndUna ≤ c.tcb.sndNxt) :
    Guarded p (ackTimer c ack now) := by
  rcases h with ⟨hidle, heq⟩ | ⟨e, hlist, hptr, hfunc, hdata⟩
  · rw [ackTimer, hidle.eTimeout]
    exact .inl ⟨hidle, heq⟩
  · rw [ackTimer, hptr]
    dsimp only
    split
    · have hempty : ({ c with ev := removeTimeEvent c.ev e.addr } : Conn).timers = [] :=
        filter_delEvent.trans (timers_removed hlist)
      split
      · exact .inr ((setTimeout_armed hempty).of_eq rfl rfl rfl)
      · next hnot =>
          exact .inl ⟨⟨hempty, rfl⟩, fun _ => BitVec.le_antisymm hle (BitVec.not_lt.mp hnot)⟩
    · exact .inr ⟨e, hlist, hptr, hfunc, hdata⟩

/-! ## Segments -/

theorem ackUna_eq (t : Tcb) (ack : Uint) (now : Timeval) : ∃ r d, ackUna t ack now =
    { t with
      srtt := r, sdev := d, sndUna := ack
      sndNxt := if ack > t.sndNxt then ack else t.sndNxt } := by
  rw [ackUna]
  split <;> exact ⟨_, _, rfl⟩

theorem handleNewAck_guarded {ack : Uint} (h : Guarded p c)
    (hstate : retransmits c.tcb.state = true) (hnew : c.tcb.sndUna < ack)
    (hack : handleNewAck c ack now = some c') : Guarded p c' := by
  -- what is common to the states: `snd_una` has moved, and the timer is looked after
  have hbase : ∀ a : Conn, a.self = c.self → a.ev.timeEventList = c.ev.timeEventList →
      a.tcb.eTimeout = c.tcb.eTimeout → a.tcb.sndUna = ack →
      a.tcb.sndNxt = (if ack > c.tcb.sndNxt then ack else c.tcb.sndNxt) →
      Guarded p (ackTimer a ack now) := by
    intro a hself htime he huna hnxt
    apply ackTimer_guarded
    · rcases h with ⟨hidle, heq⟩ | harmed
      · refine .inl ⟨hidle.of_eq hself htime he, fun hp => ?_⟩
        have hgt : ack > c.tcb.sndNxt := by
          rw [← heq hp]
          exact hnew
        rw [huna, hnxt, if_pos hgt]
      · exact .inr (harmed.of_eq hself htime he)
    · rw [huna, hnxt]
      split
      · exact BitVec.le_refl _
      · next hnot => exact BitVec.not_lt.mp hnot
  obtain ⟨r, d, heq⟩ := ackUna_eq c.tcb ack now
  rw [handleNewAck, heq] at hack
  dsimp only at hack
  split at hack
  · obtain ⟨a, ha, rfl⟩ := Option.map_eq_some_iff.mp hack
    obtain ⟨-, m, l, n, -, rfl⟩ := cbOutputBufferSpace_change ha
    exact hbase _ rfl rfl rfl rfl rfl
  iterate 3
    · cases hack
      exact hbase _ rfl rfl rfl rfl rfl
  · next hest hfin hclosing hlast =>
      cases hs : c.tcb.state <;> simp_all [retransmits]

theorem handleNewAck_timerOk {ack : Uint} (h : TimerOk p c) (hnew : c.tcb.sndUna < ack)
    (hack : handleNewAck c ack now = some c') : TimerOk p c' := by
  by_cases hsyn : c.tcb.state = .synRecvd
  · obtain ⟨r, d, heq⟩ := ackUna_eq c.tcb ack now
    rw [handleNewAck, heq] at hack
    simp only [hsyn] at hack
    cases hack
    exact ⟨fun hl hs => (h.syn hl hsyn).of_eq rfl rfl rfl, fun _ hs => by cases hs⟩
  by_cases hstate : retransmits c.tcb.state = true
  · have hg : c.live = true → Guarded p c' := fun hl =>
      handleNewAck_guarded (h.guarded hl hstate) hstate hnew hack
    obtain ⟨m, ev, r, d, o, e, k, w, -, -, -, rfl⟩ := handleNewAck_eq hack
    exact .of_guarded hg hsyn
  · obtain ⟨m, ev, r, d, o, e, k, w, -, -, -, rfl⟩ := handleNewAck_eq hack
    exact .of_rest hsyn hstate

theorem handleAllAcked_timerOk {f : Flow} (h : TimerOk p c) (heq : c.tcb.sndUna = c.tcb.sndNxt)
    (hf : handleAllAcked c now = some f) : TimerOk p f.conn := by
  cases handleAllAcked_effect hf with
  | opened hstate _ hchange =>
      obtain ⟨m, l, n, -, rfl⟩ := hchange
      exact .of_guarded (fun hl => .inl ⟨(h.syn hl hstate).of_eq rfl rfl rfl, fun _ => heq⟩) nofun
  | deleted => exact .of_dead rfl
  | finAcked => exact .of_rest nofun nofun
  | bothClosed => exact .of_rest nofun nofun
  | stillClosing => exact h
  | other => exact h

theorem handleAck_timerOk {f : Flow} (h : TimerOk p c) (hf : handleAck c s now = some f) :
    TimerOk p f.conn := by
  rcases handleAck_cases hf with ⟨-, rfl⟩ | ⟨-, a, hnew, hall⟩
  · exact h
  · have ha : TimerOk p a := by
      rcases hnew with ⟨hlt, hnew⟩ | ⟨-, rfl⟩
      · exact handleNewAck_timerOk h hlt hnew
      · exact h
    rcases hall with ⟨heq, hall⟩ | ⟨-, rfl⟩
    · exact handleAllAcked_timerOk ha heq hall
    · exact ha

theorem tcpRecvData_timerOk {fin : Bool} (h : TimerOk p c)
    (hrecv : tcpRecvData c s = some (c', fin)) : TimerOk p c' ∧ c'.tcb.state = c.tcb.state := by
  obtain ⟨-, m, ev, e, r, w, x, -, -, htime, rfl⟩ := tcpRecvData_eq hrecv
  exact ⟨h.of_eq rfl rfl rfl htime rfl rfl rfl, rfl⟩

theorem handleData_timerOk (h : TimerOk p c) (hdata : handleData c s now = some c') :
    TimerOk p c' := by
  cases handleData_effect hdata with
  | ignored => exact h
  | data _ hrecv _ => exact (tcpRecvData_timerOk h hrecv).1
  | finWait2 => exact .of_rest nofun nofun
  | @finWait1 a hstate hrecv =>
      obtain ⟨ha, hs⟩ := tcpRecvData_timerOk h hrecv
      have hret : retransmits a.tcb.state = true := by rw [hs, hstate]; rfl
      exact .of_guarded (fun hl => (ha.guarded hl hret).of_eq rfl rfl rfl rfl rfl) nofun
  | @closeWait a _ hstate _ hrecv hclose =>
      obtain ⟨ha, hs⟩ := tcpRecvData_timerOk h hrecv
      have hret : retransmits a.tcb.state = true := by rw [hs, hstate]; rfl
      obtain ⟨m, ev, e, b, -, -, -, htime, rfl⟩ := tcpRemoteClose_eq rfl hclose
      exact .of_guarded (fun hl => (ha.guarded hl hret).of_eq rfl htime rfl rfl rfl) nofun

theorem handleTcp_timerOk (h : TimerOk p c) (htcp : handleTcp c s now = some c') :
    TimerOk p c' := by
  rcases handleTcp_cases htcp with ⟨-, hrst⟩ | ⟨-, hdone⟩ | ⟨-, a, hnext, hrest⟩
  · obtain ⟨m, ev, b, -, -, rfl⟩ := handleRst_eq hrst
    exact .of_dead rfl
  · exact handleAck_timerOk h hdone
  · have ha : TimerOk p a := handleAck_timerOk h hnext
    rcases hrest with ⟨-, rfl⟩ | ⟨-, hdata⟩
    · obtain ⟨l, n, e, la, heq⟩ := handleOld_eq a
      rw [heq]
      exact ha.of_eq rfl rfl rfl rfl rfl rfl rfl
    · have hw : TimerOk p (handleWindow a s) := by
        obtain ⟨l, n, e, heq⟩ := handleWindow_eq a s
        rw [heq]
        exact ha.of_eq rfl rfl rfl rfl rfl rfl rfl
      exact handleData_timerOk hw hdata

/-! ## Events and calls -/

/-- The timer that runs is the one that is pending, and then none is. -/
theorem timeout_guarded {e : Event} (h : Guarded p c) (he : e ∈ c.ev.timeEventList)
    (hown : c.owns e = true) :
    Guarded p { tcpTimeout c with ev := removeTimeEvent (tcpTimeout c).ev e.addr } := by
  have hmem : e ∈ c.timers := List.mem_filter.mpr ⟨he, hown⟩
  obtain ⟨l, n, b, w, -, -, -, heq⟩ := tcpTimeout_eq c
  rcases h with ⟨hidle, -⟩ | ⟨x, hlist, -, -, -⟩
  · rw [hidle.timers] at hmem
    cases hmem
  · rw [hlist] at hmem
    obtain rfl := List.mem_singleton.mp hmem
    rw [heq]
    exact .inl ⟨⟨filter_delEvent.trans (timers_removed hlist), rfl⟩, fun _ => rfl⟩

theorem timeout_timerOk {e : Event} (hwf : WellFormed c) (hlive : c.live = true) (h : TimerOk p c)
    (he : e ∈ c.ev.timeEventList) (hown : c.owns e = true) :
    TimerOk p { tcpTimeout c with ev := removeTimeEvent (tcpTimeout c).ev e.addr } := by
  have hsyn := hwf.timer_state hlive he hown
  have hstate : (tcpTimeout c).tcb.state = c.tcb.state := by
    obtain ⟨l, n, b, w, -, -, -, heq⟩ := tcpTimeout_eq c
    rw [heq]
  by_cases hret : retransmits c.tcb.state = true
  · exact .of_guarded (fun _ => timeout_guarded (h.guarded hlive hret) he hown)
      (by rw [hstate]; exact hsyn)
  · exact .of_rest (by rw [hstate]; exact hsyn) (by rw [hstate]; exact hret)

/-- The segment that `tcp_send_and_ack` emits is covered, unless it is a bare FIN. -/
theorem emitSegment_guarded {data : List Uchar} {fin : Bool} (h : Guarded p c)
    (hbare : p → data = [] → fin = true → c.tcb.eTimeout ≠ none) :
    Guarded p (emitSegment c data fin now) := by
  simp only [emitSegment]
  split
  · next harm =>
      have hnone : c.timers = [] := by
        rcases h with ⟨hidle, -⟩ | ⟨e, -, hptr, -, -⟩
        · exact hidle.timers
        · rw [hptr] at harm
          cases harm.1
      have hset : Armed (setTimeout c now) := setTimeout_armed hnone
      exact .inr (hset.of_eq rfl rfl (by rw [startRtt]; split <;> rfl))
  · next hnot =>
      have he : (startRtt c.tcb data.length now).eTimeout = c.tcb.eTimeout := by
        rw [startRtt]
        split <;> rfl
      rcases h with ⟨hidle, heq⟩ | harmed
      · have hempty : data = [] := by
          have hzero : ¬data.length > 0 := fun hpos => hnot ⟨by rw [hidle.eTimeout]; rfl, hpos⟩
          exact List.eq_nil_of_length_eq_zero (by omega)
        subst hempty
        refine .inl ⟨hidle.of_eq rfl rfl he, fun hp => ?_⟩
        have hfin : fin = false := by
          by_contra hfin
          exact hbare hp rfl (by simpa using hfin) hidle.eTimeout
        subst hfin
        simp [advanceNxt, makeTcpHdr, startRtt, heq hp, sendPkt]
      · exact .inr (harmed.of_eq rfl rfl he)

theorem wrote_timerOk {e : Event} {again : Bool} (h : TimerOk p c)
    (hok : p → NoBareFin c (.alwaysEvent e.addr now))
    (hw : Wrote c now c' again) : TimerOk p c' := by
  cases hw with
  | syn hstate =>
      refine ⟨fun hl _ => (h.syn hl hstate).of_eq rfl rfl rfl, fun _ hs => ?_⟩
      rw [show c.tcb.state = .synRecvd from hstate] at hs
      cases hs
  | nothing => exact h.of_eq rfl rfl rfl rfl rfl rfl rfl
  | @segment data a _ hsyn hdata ha _ =>
      have hbare : p → data = [] → finDue c.tcb data.length = true → c.tcb.eTimeout ≠ none := by
        intro hp hnil hfin hnone
        subst hnil
        simp only [finDue, List.length_nil, Bool.and_eq_true, decide_eq_true_eq] at hfin
        obtain ⟨⟨⟨-, hwnd⟩, havail⟩, hclosing⟩ := hfin
        refine hok hp ⟨hclosing, hnone, hwnd, ?_⟩
        rw [← havail]
        simp
      have hstate : a.tcb.state = c.tcb.state ∧ a.live = c.live := by
        obtain ⟨l, n, e, k, m, r, w, la, heq⟩ := emitSegment_eq c data _ now
        rw [ha, heq]
        exact ⟨rfl, rfl⟩
      by_cases hret : retransmits c.tcb.state = true
      · have hg : a.live = true → Guarded p a := fun hl =>
          ha ▸ emitSegment_guarded (h.guarded (hstate.2 ▸ hl) hret) hbare
        exact .of_guarded (fun hl => (hg hl).of_eq rfl rfl rfl rfl rfl) (by
          dsimp only
          rw [hstate.1]
          exact hsyn)
      · exact .of_rest (by dsimp only; rw [hstate.1]; exact hsyn)
          (by dsimp only; rw [hstate.1]; exact hret)

/-- A block that the relay or another application closes was in `SYN_RECVD` or `ESTABLISHED`. -/
theorem closedBoth_timerOk {m : Option TcpMap} (h : TimerOk p c)
    (hattached : c.tcb.state = .synRecvd ∨ c.tcb.state = .established)
    (hclose : ClosedBoth { c with map := m } c') : TimerOk p c' := by
  cases hclose with
  | reset => exact .of_dead rfl
  | fin hsyn _ htime =>
      have hest : c.tcb.state = .established := hattached.resolve_left hsyn
      have hret : retransmits c.tcb.state = true := by rw [hest]; rfl
      refine .of_guarded (fun hl => (h.guarded hl hret).of_eq rfl htime rfl rfl rfl) ?_
      dsimp only
      rw [if_pos hest]
      nofun

theorem tcpClose_timerOk {hard : Bool} (h : TimerOk p c)
    (hattached : c.tcb.state = .synRecvd ∨ c.tcb.state = .established) :
    TimerOk p (tcpClose c hard) := by
  generalize hclosed : tcpClose c hard = c'
  cases tcpClose_cases hclosed with
  | reset => exact .of_dead rfl
  | fin hsyn =>
      have hest : c.tcb.state = .established := hattached.resolve_left hsyn
      have hret : retransmits c.tcb.state = true := by rw [hest]; rfl
      refine .of_guarded (fun hl => (h.guarded hl hret).of_eq rfl rfl rfl rfl rfl) ?_
      dsimp only
      rw [if_pos hest]
      nofun

theorem tcpSend_timerOk {d : List Uchar} (h : TimerOk p c) (hsend : tcpSend c d = some c') :
    TimerOk p c' := by
  obtain ⟨r, k, l, n, e, -, rfl⟩ := tcpSend_eq hsend
  exact h.of_eq rfl rfl rfl rfl rfl rfl rfl

theorem tcpRead_timerOk {len : ℤ} {d : List Uchar} (h : TimerOk p c)
    (hread : tcpRead c len = some (c', d)) : TimerOk p c' ∧ c'.tcb.state = c.tcb.state := by
  obtain ⟨l, n, e, la, -, rfl⟩ := tcpRead_eq hread
  exact ⟨h.of_eq rfl rfl rfl rfl rfl rfl rfl, rfl⟩

theorem TimerOk.setFd {l : List Event} (h : TimerOk p c) :
    TimerOk p { c with ev := { c.ev with fdEventList := l } } :=
  h.of_eq rfl rfl rfl rfl rfl rfl rfl

theorem canRead_timerOk {r : ReadResult} {again : Bool} (h : TimerOk p c)
    (hattached : c.tcb.state = .synRecvd ∨ c.tcb.state = .established)
    (hread : CanRead c r c' again) : TimerOk p c' := by
  cases hread with
  | nothing => exact h
  | closed _ hclose => exact closedBoth_timerOk h hattached hclose
  | sent _ _ hsend _ => exact (tcpSend_timerOk h hsend).of_eq rfl rfl rfl rfl rfl rfl rfl

theorem canWrite_timerOk {r : WriteResult} {again : Bool} (h : TimerOk p c)
    (hattached : c.tcb.state = .synRecvd ∨ c.tcb.state = .established)
    (hwrite : CanWrite c r c' again) : TimerOk p c' := by
  cases hwrite with
  | again _ hread _ => exact (tcpRead_timerOk h hread).1.of_eq rfl rfl rfl rfl rfl rfl rfl
  | closed _ hread hclose =>
      obtain ⟨ha, hs⟩ := tcpRead_timerOk h hread
      exact closedBoth_timerOk ha (hs ▸ hattached) hclose
  | wrote _ _ _ hread _ => exact (tcpRead_timerOk h hread).1.of_eq rfl rfl rfl rfl rfl rfl rfl

theorem didConnect_timerOk {ok again : Bool} (h : TimerOk p c)
    (hattached : c.tcb.state = .synRecvd ∨ c.tcb.state = .established)
    (hconn : DidConnect c ok c' again) : TimerOk p c' := by
  cases hconn with
  | @accepted m =>
      have hm : TimerOk p { c with map := m } := h.of_eq rfl rfl rfl rfl rfl rfl rfl
      exact TimerOk.markForIfWrite (hm.of_eq rfl rfl rfl rfl rfl rfl rfl)
  | closed _ hclose => exact closedBoth_timerOk h hattached hclose

theorem TimerOk.stepped (hwf : WellFormed c) (hlive : c.live = true) (h : TimerOk p c)
    (hok : p → NoBareFin c i) (hstep : Stepped c i c') : TimerOk p c' := by
  cases hstep with
  | @packet s now _ htcp =>
      have hr : TimerOk p (c.receive s) := h.of_eq rfl rfl rfl rfl rfl rfl rfl
      exact handleTcp_timerOk hr htcp
  | timeout he hown _ => exact timeout_timerOk hwf hlive h he hown
  | removed => exact .of_dead rfl
  | canRead _ _ _ hm hread _ => exact (canRead_timerOk h (hwf.attached hm) hread).setFd
  | canWrite _ _ _ hm hwrite _ => exact (canWrite_timerOk h (hwf.attached hm) hwrite).setFd
  | didConnect _ _ _ hm hconn _ => exact (didConnect_timerOk h (hwf.attached hm) hconn).setFd
  | write _ _ _ hw _ => exact (wrote_timerOk h hok hw).of_eq rfl rfl rfl rfl rfl rfl rfl
  | accept => exact TimerOk.markForIfWrite (h.of_eq rfl rfl rfl rfl rfl rfl rfl)
  | send _ _ _ hsend => exact tcpSend_timerOk h hsend
  | read _ hread => exact (tcpRead_timerOk h hread).1
  | close hcb => exact tcpClose_timerOk h (hwf.cb.mp (by rw [hcb]; rfl))
  | @others ev hev =>
      have htimers : ({ c with ev := ev } : Conn).timers = c.timers := hev.2.1
      refine ⟨fun hl hs => ?_, fun hl hs => ?_⟩
      · exact ⟨htimers.trans (h.syn hl hs).timers, (h.syn hl hs).eTimeout⟩
      · rcases h.guarded hl hs with ⟨hidle, heq⟩ | ⟨e, hlist, hptr, hfunc, hdata⟩
        · exact .inl ⟨⟨htimers.trans hidle.timers, hidle.eTimeout⟩, heq⟩
        · exact .inr ⟨e, htimers.trans hlist, hptr, hfunc, hdata⟩

/-! ## Runs -/

theorem TimerOk.fresh {self : ℕ} {app : TcpCallback} {isn : Uint} {ev : EventLists}
    {syn : Segment} (hev : freshAddr self ev) : TimerOk p (.fresh self app isn ev syn) := by
  exact ⟨fun _ _ => ⟨(filter_owns_fresh hev).1, rfl⟩, fun _ hs => by cases hs⟩

theorem TimerOk.of_start {app : TcpCallback} (h : Start app c) : TimerOk p c := by
  obtain ⟨self, isn, ev, syn, hfresh, hopen⟩ := start_cases h
  have hnew : TimerOk p (.fresh self app isn ev syn) := TimerOk.fresh hfresh
  cases hopen with
  | other => exact hnew
  | accepted => exact TimerOk.markForIfWrite (hnew.of_eq rfl rfl rfl rfl rfl rfl rfl)
  | connecting => exact hnew.of_eq rfl rfl rfl rfl rfl rfl rfl
  | failed _ hclose => exact closedBoth_timerOk hnew (.inl rfl) hclose

theorem Armed.covered (h : Armed c) : Covered c := by
  obtain ⟨e, hlist, hptr, hfunc, hdata⟩ := h
  have hmem : e ∈ c.timers := by
    rw [hlist]
    exact List.mem_singleton_self e
  exact ⟨e, (List.mem_filter.mp hmem).1, hptr, hfunc, hdata⟩

theorem Unarmed.not_covered (h : Unarmed c) : ¬Covered c := by
  rintro ⟨e, -, hptr, -, -⟩
  rw [h.eTimeout] at hptr
  cases hptr

/-- In a run without bare FINs, what is in flight is covered by the timer in every state of
the connection exactly if it is not the SYN/ACK. -/
theorem covered_iff_of_noBareFin (h : Reached NoBareFin c) (hlive : c.live = true)
    (hstate : c.tcb.state = .synRecvd ∨ retransmits c.tcb.state = true) :
    (c.tcb.sndUna ≠ c.tcb.sndNxt → Covered c) ↔
      (c.tcb.state = .synRecvd → c.tcb.sndUna = c.tcb.sndNxt) := by
  have hinv : TimerOk True c := h.invariant (fun _ _ => .of_start)
    fun _ _ _ hwf hinv hok hl hstep => hinv.stepped hwf hl (fun _ => hok) hstep
  constructor
  · intro hcov hsyn
    by_contra hne
    exact (hinv.syn hlive hsyn).not_covered (hcov hne)
  · intro hidle hne
    have hsyn : c.tcb.state ≠ .synRecvd := fun hs => hne (hidle hs)
    rcases hinv.guarded hlive (hstate.resolve_left hsyn) with ⟨-, heq⟩ | harmed
    · exact absurd (heq trivial) hne
    · exact harmed.covered

/-- A byte that has been sent and not been acknowledged. -/
theorem covered_iff_of_noBareFin_byte : ∃ c, Reached NoBareFin c ∧ c.live = true ∧
    c.tcb.state = .established ∧ c.tcb.sndUna ≠ c.tcb.sndNxt ∧ Covered c := by
  have hexec : (execFrom NoBareFin .tcpMapCb 0 (clientSyn 8192) (.connected 5)
      (handshake ++ [.fdEvent 1 (.read (.data [7])), .alwaysEvent 2 ⟨0, 0⟩])).any
      (fun c => c.live = true ∧ c.tcb.state = .established ∧ c.tcb.sndUna ≠ c.tcb.sndNxt) =
        true := by
    decide +kernel
  obtain ⟨c, hreach, hc⟩ := reached_of_exec hexec
  obtain ⟨hlive, hest, hne⟩ := of_decide_eq_true hc
  have hsyn : c.tcb.state = .synRecvd → c.tcb.sndUna = c.tcb.sndNxt := by
    rw [hest]
    nofun
  have hret : retransmits c.tcb.state = true := by rw [hest]; rfl
  exact ⟨c, hreach, hlive, hest, hne,
    (covered_iff_of_noBareFin hreach hlive (.inr hret)).mpr hsyn hne⟩

/-- A SYN/ACK in flight is not covered, and neither is the FIN after an empty stream. -/
theorem uncovered_in_flight :
    (∃ c, Reached AcksSent c ∧ c.live = true ∧ c.tcb.state = .synRecvd ∧
      c.tcb.sndUna ≠ c.tcb.sndNxt ∧ ¬Covered c) ∧
    ∃ c, Reached AcksSent c ∧ c.live = true ∧ c.tcb.state = .finWait1 ∧
      c.tcb.sndUna ≠ c.tcb.sndNxt ∧ ¬Covered c := by
  have hsyn : (execFrom AcksSent .tcpMapCb 0 (clientSyn 8192) (.connected 5)
      [.alwaysEvent 0 ⟨0, 0⟩]).any
      (fun c => c.live = true ∧ c.tcb.state = .synRecvd ∧ c.tcb.sndUna ≠ c.tcb.sndNxt ∧
        ¬Covered c) = true := by
    decide +kernel
  have hfin : (execFrom AcksSent .tcpMapCb 0 (clientSyn 8192) (.connected 5)
      (handshake ++ [.fdEvent 1 (.read .eof), .alwaysEvent 2 ⟨0, 0⟩])).any
      (fun c => c.live = true ∧ c.tcb.state = .finWait1 ∧ c.tcb.sndUna ≠ c.tcb.sndNxt ∧
        ¬Covered c) = true := by
    decide +kernel
  obtain ⟨c, hc, hp⟩ := reached_of_exec hsyn
  obtain ⟨c', hc', hp'⟩ := reached_of_exec hfin
  exact ⟨⟨c, hc, of_decide_eq_true hp⟩, c', hc', of_decide_eq_true hp'⟩

end Ptrtd
