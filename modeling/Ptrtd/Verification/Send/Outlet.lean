import Ptrtd.Verification.Timer.Correctness

/-! # The send side of a connection

Seen from the send buffer, a step acknowledges, goes back after a timeout, emits a segment,
stores what the application writes, closes, or does nothing. -/

namespace Ptrtd

variable {c c' : Conn} {s : Segment} {now : Timeval}

/-- Everything about a connection that concerns the data it sends. -/
structure Outlet where
  live : Bool
  state : TcpState
  iss : Uint
  una : Uint
  nxt : Uint
  outbuf : Ringbuf
  written : List Uchar
  sent : List Segment
  high : ℕ
  received : List Segment

def Conn.outlet (c : Conn) : Outlet :=
  { live := c.live
    state := c.tcb.state
    iss := c.tcb.iss
    una := c.tcb.sndUna
    nxt := c.tcb.sndNxt
    outbuf := c.tcb.outbuf
    written := c.trace.written
    sent := c.trace.sent
    high := c.trace.high
    received := c.trace.received }

namespace Outlet

variable {o o₁ o₂ : Outlet}

def receive (o : Outlet) (s : Segment) : Outlet := { o with received := o.received ++ [s] }

/-- `snd_una` moves to a new ACK number and may take `snd_nxt` along. Only in `ESTABLISHED`
the buffer is freed up to it. -/
def advance (o : Outlet) (ack : Uint) : Outlet :=
  { o with
    una := ack
    nxt := if ack > o.nxt then ack else o.nxt
    outbuf := if o.state = .established then rbAdvance o.outbuf ack else o.outbuf }

/-- The segment's ACK number is new. -/
def NewAck (o : Outlet) (s : Segment) : Prop := s.isAck = true ∧ o.una < s.ack

instance (o : Outlet) (s : Segment) : Decidable (o.NewAck s) :=
  inferInstanceAs (Decidable (_ ∧ _))

def ack (o : Outlet) (s : Segment) : Outlet := if o.NewAck s then o.advance s.ack else o

/-- Hand a segment to `send_pkt`. -/
def emit (o : Outlet) (s : Segment) : Outlet :=
  { o with
    sent := o.sent ++ [s]
    high := SeqNum.reach o.iss o.high (s.seq + BitVec.ofNat 32 s.span) }

/-- What the switch for "nothing is in flight" does. -/
inductive Settled (o : Outlet) (s : Segment) : Outlet → Prop where
  | same : (s.isAck = true → o.una = o.nxt → o.state ≠ .synRecvd) → Settled o s o
  | opened : s.isAck = true → o.una = o.nxt → o.state = .synRecvd →
      Settled o s { o with state := .established }
  | deleted : s.isAck = true → o.una = o.nxt → o.state = .lastAck →
      Settled o s { o with live := false }
  | finAcked : s.isAck = true → o.una = o.nxt → o.state = .finWait1 →
      rbAvail o.outbuf o.nxt = -1 → Settled o s { o with state := .finWait2 }
  | bothClosed : s.isAck = true → o.una = o.nxt → o.state = .closing →
      rbAvail o.outbuf o.nxt = -1 → Settled o s { o with state := .timeWait }

/-- Where the peer's FIN leads. -/
inductive Moved (o : Outlet) (s : Segment) : Outlet → Prop where
  | same : Moved o s o
  | lastAck : s.isFin = true → o.state = .established → Moved o s { o with state := .lastAck }
  | closing : s.isFin = true → o.state = .finWait1 → Moved o s { o with state := .closing }
  | timeWait : s.isFin = true → o.state = .finWait2 → Moved o s { o with state := .timeWait }

/-- The data of a segment: nothing, or what `rb_read` yields from `snd_nxt` on. -/
def Chunk (o : Outlet) (data : List Uchar) : Prop :=
  data = [] ∨ 0 < rbAvail o.outbuf o.nxt ∧ ∃ m : ℕ, rbRead o.outbuf o.nxt m = some data

/-- The steps, seen from the send side. -/
inductive Step (o : Outlet) : Input → Outlet → Prop where
  | quiet {i : Input} : Step o i o
  | removed {addr : ℕ} : retransmits o.state = false →
      Step o (.timeEvent addr) { o with live := false }
  | reset {s : Segment} {now : Timeval} : s.isRst = true →
      Step o (.packet s now) { o.receive s with live := false }
  | packet {s : Segment} {now : Timeval} {o₁ o₂ : Outlet} : s.isRst = false →
      Settled ((o.receive s).ack s) s o₁ → Moved o₁ s o₂ → Step o (.packet s now) o₂
  | timeout {addr : ℕ} : o.state ≠ .synRecvd → Step o (.timeEvent addr) { o with nxt := o.una }
  | synAck {addr : ℕ} {now : Timeval} {s : Segment} : o.state = .synRecvd → s.seq = o.nxt →
      s.data = [] → s.flags = 0x12 →
      Step o (.alwaysEvent addr now) { o.emit s with nxt := o.nxt + 1 }
  | segment {addr : ℕ} {now : Timeval} {s : Segment} {fin push : Bool} : o.state ≠ .synRecvd →
      o.Chunk s.data → s.seq = o.nxt → s.flags = sendFlags push fin →
      (fin = true → rbAvail o.outbuf (o.nxt + BitVec.ofNat 32 s.data.length) = 0 ∧
        isClosingState o.state = true) →
      Step o (.alwaysEvent addr now)
        { o.emit s with
          nxt := o.nxt + BitVec.ofNat 32 s.data.length + (if fin then 1 else 0) }
  | write {i : Input} {d : List Uchar} {r : Ringbuf} {n : ℕ} : o.state = .established →
      rbWrite o.outbuf d = some (r, n) →
      Step o i { o with outbuf := r, written := o.written ++ d.take n }
  | close {i : Input} : o.state = .established → Step o i { o with state := .finWait1 }
  | abort {i : Input} {s : Segment} : o.state = .synRecvd ∨ o.state = .established →
      s.seq = o.nxt → s.data = [] → s.flags = 0x14 → Step o i { o.emit s with live := false }

end Outlet

/-! ## Segments -/

theorem handleNewAck_outlet {ack : Uint} (h : handleNewAck c ack now = some c') :
    c'.outlet = c.outlet.advance ack := by
  obtain ⟨m, ev, r, d, o, e, k, w, -, rfl, -, rfl⟩ := handleNewAck_eq h
  rfl

theorem handleAllAcked_outlet {f : Flow} (hack : s.isAck = true)
    (heq : c.tcb.sndUna = c.tcb.sndNxt) (h : handleAllAcked c now = some f) :
    c.outlet.Settled s f.conn.outlet := by
  cases handleAllAcked_effect h with
  | opened hstate _ hchange =>
      obtain ⟨m, l, n, -, rfl⟩ := hchange
      exact .opened hack heq hstate
  | deleted hstate => exact .deleted hack heq hstate
  | finAcked hstate havail => exact .finAcked hack heq hstate havail
  | bothClosed hstate havail => exact .bothClosed hack heq hstate havail
  | stillClosing hstate => exact .same fun _ _ hs => nomatch hstate.symm.trans hs
  | other hstate => exact .same fun _ _ => hstate

theorem handleAck_outlet {f : Flow} (h : handleAck c s now = some f) :
    (c.outlet.ack s).Settled s f.conn.outlet := by
  rcases handleAck_cases h with ⟨hno, rfl⟩ | ⟨hack, a, hnew, hall⟩
  · have hsame : c.outlet.ack s = c.outlet := if_neg fun hs => by
      rw [hs.1] at hno
      cases hno
    rw [hsame]
    exact .same fun hs => by
      rw [hs] at hno
      cases hno
  · have ha : c.outlet.ack s = a.outlet := by
      rcases hnew with ⟨hlt, hnew⟩ | ⟨hnot, rfl⟩
      · rw [handleNewAck_outlet hnew]
        exact if_pos ⟨hack, hlt⟩
      · exact if_neg fun hs => hnot hs.2
    rw [ha]
    rcases hall with ⟨heq, hall⟩ | ⟨hne, rfl⟩
    · exact handleAllAcked_outlet hack heq hall
    · exact .same fun _ heq => absurd heq hne

theorem tcpRecvData_outlet {fin : Bool} (h : tcpRecvData c s = some (c', fin)) :
    c'.outlet = c.outlet := by
  obtain ⟨-, m, ev, e, r, w, x, -, -, -, rfl⟩ := tcpRecvData_eq h
  rfl

theorem handleData_outlet (h : handleData c s now = some c') : c.outlet.Moved s c'.outlet := by
  cases handleData_effect h with
  | ignored => exact .same
  | data _ hrecv _ =>
      rw [tcpRecvData_outlet hrecv]
      exact .same
  | finWait2 hstate hrecv =>
      have hmoved := Outlet.Moved.timeWait (o := c.outlet) (tcpRecvData_eq hrecv).1.symm hstate
      rw [← tcpRecvData_outlet hrecv] at hmoved ⊢
      exact hmoved
  | finWait1 hstate hrecv =>
      have hmoved := Outlet.Moved.closing (o := c.outlet) (tcpRecvData_eq hrecv).1.symm hstate
      rw [← tcpRecvData_outlet hrecv] at hmoved ⊢
      exact hmoved
  | closeWait hstate hfin hrecv hclose =>
      have hmoved := Outlet.Moved.lastAck (o := c.outlet) hfin hstate
      rw [← tcpRecvData_outlet hrecv] at hmoved ⊢
      obtain ⟨m, ev, e, b, -, -, -, -, rfl⟩ := tcpRemoteClose_eq rfl hclose
      exact hmoved

theorem handleWindow_outlet (c : Conn) (s : Segment) : (handleWindow c s).outlet = c.outlet := by
  obtain ⟨l, n, e, heq⟩ := handleWindow_eq c s
  rw [heq]
  rfl

/-- What a segment does to the send side: it is over, or the ACK number is processed, then
the state when everything is acknowledged, then a FIN. -/
theorem handleTcp_arrived (h : handleTcp (c.receive s) s now = some c') :
    s.isRst = true ∧ c'.outlet = { c.outlet.receive s with live := false } ∨
      s.isRst = false ∧ ∃ o₁, Outlet.Settled ((c.outlet.receive s).ack s) s o₁ ∧
        o₁.Moved s c'.outlet := by
  rcases handleTcp_cases h with ⟨hrst, h⟩ | ⟨hrst, hdone⟩ | ⟨hrst, a, hnext, hrest⟩
  · obtain ⟨m, ev, b, -, -, rfl⟩ := handleRst_eq h
    exact .inl ⟨hrst, rfl⟩
  · exact .inr ⟨hrst, _, handleAck_outlet hdone, .same⟩
  · refine .inr ⟨hrst, _, handleAck_outlet hnext, ?_⟩
    rcases hrest with ⟨-, rfl⟩ | ⟨-, hdata⟩
    · obtain ⟨l, n, e, la, heq⟩ := handleOld_eq a
      rw [heq]
      exact .same
    · have hmoved := handleData_outlet hdata
      rw [handleWindow_outlet] at hmoved
      exact hmoved

theorem handleTcp_outlet (h : handleTcp (c.receive s) s now = some c') :
    c.outlet.Step (.packet s now) c'.outlet := by
  rcases handleTcp_arrived h with ⟨hrst, heq⟩ | ⟨hrst, o₁, hsettled, hmoved⟩
  · rw [heq]
    exact .reset hrst
  · exact .packet hrst hsettled hmoved

/-! ## Sending -/

theorem sendData_chunk {data : List Uchar} (h : sendData c.tcb = some data) :
    c.outlet.Chunk data := by
  rw [sendData] at h
  dsimp only at h
  split at h
  · next hpos =>
      obtain ⟨hwnd, havail⟩ := hpos
      refine .inr ⟨havail, ?_⟩
      generalize hlen : (if (if rbAvail c.tcb.outbuf c.tcb.sndNxt > c.tcb.mss.toNat then
        (c.tcb.mss.toNat : ℤ) else rbAvail c.tcb.outbuf c.tcb.sndNxt) > windowSize c.tcb then
        windowSize c.tcb else if rbAvail c.tcb.outbuf c.tcb.sndNxt > c.tcb.mss.toNat then
        (c.tcb.mss.toNat : ℤ) else rbAvail c.tcb.outbuf c.tcb.sndNxt) = len at h
      have hnonneg : 0 ≤ len := by
        rw [← hlen]
        split_ifs <;> omega
      obtain ⟨m, rfl⟩ := Int.eq_ofNat_of_zero_le hnonneg
      exact ⟨m, h⟩
  · cases h
    exact .inl rfl

/-- There is something to send if there is room and data. -/
theorem sendData_ne_nil {t : Tcb} {d : List Uchar} (hmss : t.mss ≠ 0) (hroom : 0 < windowSize t)
    (havail : 0 < rbAvail t.outbuf t.sndNxt) (hd : sendData t = some d) : d ≠ [] := by
  have hpos : 0 < t.mss.toNat := Nat.pos_of_ne_zero fun hzero => hmss (BitVec.eq_of_toNat_eq hzero)
  rw [sendData, if_pos ⟨hroom, havail⟩] at hd
  refine Buffer.rbRead_ne_nil ?_ havail hd
  split <;> split <;> omega

/-- A FIN is sent only after we have closed, and before it has been acknowledged. -/
theorem ne_of_isClosingState {st : TcpState} (h : isClosingState st = true) :
    st ≠ .synRecvd ∧ st ≠ .established ∧ st ≠ .finWait2 := by
  refine ⟨?_, ?_, ?_⟩ <;> rintro rfl <;> cases h

theorem finDue_spec {t : Tcb} {len : ℕ} (h : finDue t len = true) :
    rbAvail t.outbuf (t.sndNxt + BitVec.ofNat 32 len) = 0 ∧ isClosingState t.state = true := by
  simp only [finDue, Bool.and_eq_true, decide_eq_true_eq] at h
  exact ⟨h.1.2, h.2⟩

theorem wrote_outlet (addr : ℕ) {again : Bool} (h : Wrote c now c' again) :
    c.outlet.Step (.alwaysEvent addr now) c'.outlet := by
  cases h with
  | syn hstate =>
      obtain ⟨s, hs⟩ : ∃ s, s = (makeTcpHdr c.tcb [] 0x12).2 := ⟨_, rfl⟩
      have hseq : s.seq = c.tcb.sndNxt := by rw [hs]; rfl
      have hdata : s.data = [] := by rw [hs]; rfl
      have hflags : s.flags = 0x12 := by rw [hs]; rfl
      have hstep : c.outlet.Step (.alwaysEvent addr now)
          { c.outlet.emit s with nxt := c.tcb.sndNxt + 1 } := .synAck hstate hseq hdata hflags
      rw [← hs]
      exact hstep
  | nothing => exact .quiet
  | @segment data a e hsyn hdata ha _ =>
      obtain ⟨l, n, e', k, m, r, w, la, heq⟩ := emitSegment_eq c data (finDue c.tcb data.length) now
      obtain ⟨s, hs⟩ : ∃ s : Segment, s =
          { seq := c.tcb.sndNxt, ack := c.tcb.rcvNxt
            flags := sendFlags (pushDue c.tcb data.length) (finDue c.tcb data.length)
            wnd := c.tcb.rcvWnd.setWidth 16, data } := ⟨_, rfl⟩
      have hseq : s.seq = c.tcb.sndNxt := by rw [hs]
      have hdata' : s.data = data := by rw [hs]
      have hflags : s.flags = sendFlags (pushDue c.tcb data.length) (finDue c.tcb data.length) := by
        rw [hs]
      rw [heq, ← hs, ← hdata'] at ha
      rw [← hdata'] at hdata hflags
      have hstep : c.outlet.Step (.alwaysEvent addr now)
          { c.outlet.emit s with
            nxt := c.tcb.sndNxt + BitVec.ofNat 32 s.data.length +
              (if finDue c.tcb s.data.length then 1 else 0) } :=
        .segment hsyn (sendData_chunk hdata) hseq hflags finDue_spec
      subst ha
      exact hstep

theorem tcpSend_outlet {d : List Uchar} (h : tcpSend c d = some c') : ∃ r n,
    rbWrite c.tcb.outbuf d = some (r, n) ∧
      c'.outlet = { c.outlet with outbuf := r, written := c.trace.written ++ d.take n } := by
  obtain ⟨r, k, l, n, e, hw, rfl⟩ := tcpSend_eq h
  exact ⟨r, k, hw, rfl⟩

/-! ## Closing -/

theorem closedBoth_outlet {m : Option TcpMap} {i : Input}
    (hattached : c.tcb.state = .synRecvd ∨ c.tcb.state = .established)
    (h : ClosedBoth { c with map := m } c') : c.outlet.Step i c'.outlet := by
  cases h with
  | reset => exact .abort hattached rfl rfl rfl
  | fin hsyn =>
      have hest : c.tcb.state = .established := hattached.resolve_left hsyn
      have hclose : c.outlet.Step i _ := .close hest
      simp only [Conn.outlet, hest, if_true] at hclose ⊢
      exact hclose

theorem tcpClose_outlet {hard : Bool} {i : Input}
    (hattached : c.tcb.state = .synRecvd ∨ c.tcb.state = .established) :
    c.outlet.Step i (tcpClose c hard).outlet := by
  generalize hclosed : tcpClose c hard = c'
  cases tcpClose_cases hclosed with
  | reset => exact .abort hattached rfl rfl rfl
  | fin hsyn =>
      have hest : c.tcb.state = .established := hattached.resolve_left hsyn
      have hclose : c.outlet.Step i _ := .close hest
      simp only [Conn.outlet, hest, if_true] at hclose ⊢
      exact hclose

/-! ## All steps -/

theorem markForIfWrite_outlet (c : Conn) : (markForIfWrite c).outlet = c.outlet := by
  obtain ⟨l, n, e, -, heq⟩ := markForIfWrite_eq c
  rw [heq]
  rfl

theorem tcpRead_outlet {len : ℤ} {d : List Uchar} (h : tcpRead c len = some (c', d)) :
    c'.outlet = c.outlet := by
  obtain ⟨l, n, e, la, -, rfl⟩ := tcpRead_eq h
  rfl

/-- Every step of a connection is a step of its send side. -/
theorem step_outlet {i : Input} (hwf : WellFormed c) (htimer : TimerOk False c)
    (hlive : c.live = true) (hstep : Stepped c i c') : c.outlet.Step i c'.outlet := by
  cases hstep with
  | packet htcp => exact handleTcp_outlet htcp
  | @timeout e he hown _ =>
      have hmark := markForIfWrite_outlet
        { c with
          tcb := windowUpdate
            { c.tcb with
              eTimeout := none, sndNxt := c.tcb.sndUna, rttMark := c.tcb.sndUna - 1,
              sndCwnd := 0 } }
      have hstep : c.outlet.Step (.timeEvent e.addr) _ := .timeout (hwf.timer_state hlive he hown)
      exact hmark ▸ hstep
  | @removed e he hown hfunc =>
      -- a block that retransmits has no such event
      have hrest : retransmits c.tcb.state = false := by
        by_contra hret
        have hmem : e ∈ c.timers := List.mem_filter.mpr ⟨he, hown⟩
        rcases htimer.guarded hlive (by simpa using hret) with ⟨hidle, -⟩ | ⟨x, hlist, -, hx, -⟩
        · rw [hidle.timers] at hmem
          cases hmem
        · rw [hlist] at hmem
          rw [List.mem_singleton.mp hmem, hx] at hfunc
          cases hfunc
      exact .removed hrest
  | @canRead e r _ _ _ he hown hfunc hm hread _ =>
      cases hread with
      | nothing => exact .quiet
      | closed _ hclose =>
          have hclosed := closedBoth_outlet (i := .fdEvent e.addr (.read r))
            (hwf.attached hm) hclose
          exact hclosed
      | sent _ _ hsend _ =>
          obtain ⟨b, n, hw, heq⟩ := tcpSend_outlet hsend
          have hest : c.tcb.state = .established := by
            refine (hwf.attached hm).resolve_left fun hsyn => ?_
            have := hwf.synFd hlive hsyn _ he hown
            rw [hfunc] at this
            cases this
          have hstep := Outlet.Step.write (o := c.outlet) (i := .fdEvent e.addr (.read r)) hest hw
          exact heq ▸ hstep
  | @canWrite e r _ _ _ _ _ _ hm hwrite _ =>
      cases hwrite with
      | again _ hread _ =>
          have hquiet := tcpRead_outlet hread
          exact hquiet.symm ▸ Outlet.Step.quiet
      | @closed a a' d m _ hread hclose =>
          have hquiet := tcpRead_outlet hread
          have hstate : a.tcb.state = c.tcb.state := congrArg Outlet.state hquiet
          have hclosed := closedBoth_outlet (i := .fdEvent e.addr (.write r))
            (hstate ▸ hwf.attached hm) hclose
          exact hquiet ▸ hclosed
      | wrote _ _ _ hread _ =>
          have hquiet := tcpRead_outlet hread
          exact hquiet.symm ▸ Outlet.Step.quiet
  | @didConnect e ok _ _ _ _ _ _ hm hconn _ =>
      cases hconn with
      | accepted =>
          obtain ⟨l, n, e, -, heq⟩ := tcpAccept_eq { c with map := _ }
          rw [heq]
          exact .quiet
      | closed _ hclose =>
          have hclosed := closedBoth_outlet (i := .fdEvent e.addr (.connect ok))
            (hwf.attached hm) hclose
          exact hclosed
  | @write e _ _ _ _ _ _ _ hw _ =>
      have hwrote := wrote_outlet e.addr hw
      exact hwrote
  | accept =>
      obtain ⟨l, n, e, -, heq⟩ := tcpAccept_eq c
      rw [heq]
      exact .quiet
  | send _ hest _ hsend =>
      obtain ⟨r, n, hw, heq⟩ := tcpSend_outlet hsend
      rw [heq]
      exact .write hest hw
  | read _ hread => exact (tcpRead_outlet hread).symm ▸ Outlet.Step.quiet
  | close hcb => exact tcpClose_outlet (hwf.cb.mp (by rw [hcb]; rfl))
  | others => exact .quiet

/-! ## Runs -/

/-- The send side of a new connection. -/
def Outlet.fresh (isn : Uint) (syn : Segment) : Outlet :=
  { live := true
    state := .synRecvd
    iss := nextIsn isn
    una := nextIsn isn
    nxt := nextIsn isn
    outbuf := rbSet (rbNew 16384) (nextIsn isn + 1)
    written := []
    sent := []
    high := 0
    received := [syn] }

/-- A new connection has sent nothing, or it has been reset at once. -/
theorem start_outlet {app : TcpCallback} (h : Start app c) : ∃ isn syn,
    c.outlet = .fresh isn syn ∨ ∃ s : Segment, s.seq = nextIsn isn ∧ s.data = [] ∧
      s.flags = 0x14 ∧ c.outlet = { (Outlet.fresh isn syn).emit s with live := false } := by
  obtain ⟨self, isn, ev, syn, -, hopen⟩ := start_cases h
  refine ⟨isn, syn, ?_⟩
  cases hopen with
  | other => exact .inl rfl
  | accepted =>
      obtain ⟨l, n, e, -, heq⟩ := tcpAccept_eq { Conn.fresh self app isn ev syn with map := _ }
      rw [heq]
      exact .inl rfl
  | connecting => exact .inl rfl
  | failed _ hclose =>
      cases hclose with
      | reset =>
          refine .inr ⟨(makeTcpHdr (newTcb app isn syn) [] 0x14).2, ?_⟩
          exact ⟨rfl, rfl, rfl, rfl⟩
      | fin hsyn => exact absurd rfl hsyn

/-- A property of the send side that every step keeps holds throughout a run. -/
theorem Reached.outlet_invariant {ok : Conn → Input → Prop} {inv : Outlet → Prop}
    (h : Reached ok c) (hfresh : ∀ isn syn, inv (.fresh isn syn))
    (habort : ∀ o s, inv o → o.state = .synRecvd → s.seq = o.nxt → s.data = [] →
      s.flags = 0x14 → inv { o.emit s with live := false })
    (hstep : ∀ c i o, inv c.outlet → ok c i → c.live = true → c.outlet.Step i o → inv o) :
    inv c.outlet := by
  have hboth : TimerOk False c ∧ inv c.outlet := by
    apply h.invariant
    · intro app c₀ hstart
      refine ⟨.of_start hstart, ?_⟩
      obtain ⟨isn, syn, hnew | ⟨s, hseq, hdata, hflags, hnew⟩⟩ := start_outlet hstart
      · rw [hnew]
        exact hfresh isn syn
      · rw [hnew]
        exact habort _ s (hfresh isn syn) rfl hseq hdata hflags
    · intro t i u hwf ht hok hlive hstepped
      exact ⟨ht.1.stepped hwf hlive False.elim hstepped,
        hstep t i _ ht.2 hok hlive (step_outlet hwf ht.1 hlive hstepped)⟩
  exact hboth.2

end Ptrtd
