import Ptrtd.Verification.Session.History
import Ptrtd.Verification.Session.Iteration
import Ptrtd.Verification.Session.Schedule
import Ptrtd.Verification.Send.Correctness
import Ptrtd.Verification.Timer.Correctness

/-! # Waiting with output

The write event that is still registered after it has run has sent data, so that the
retransmission timer is pending: `select` does not wait forever then. The exception is a FIN
that goes out although `snd_nxt` lies further back than `outbuf` reaches. -/

namespace Ptrtd

variable {a c c' : Conn} {now : Timeval} {data : List Uchar} {fin : Bool}

/-- A FIN is sent without data and leaves more than one byte of the window, no timer is
pending, and `snd_nxt` lies further back than `outbuf` reaches. -/
def Stale (c : Conn) : Prop :=
  isClosingState c.tcb.state = true ∧ c.tcb.eTimeout = none ∧ 1 < windowSize c.tcb ∧
    c.tcb.outbuf.used < (c.tcb.outbuf.wSeq - c.tcb.sndNxt).toInt

instance (c : Conn) : Decidable (Stale c) := inferInstanceAs (Decidable (_ ∧ _ ∧ _ ∧ _))

/-- `do_tcb_write` does not find the connection stale. -/
def NotStale (c : Conn) : Input → Prop
  | .alwaysEvent _ _ => ¬Stale c
  | _ => True

instance (c : Conn) : (i : Input) → Decidable (NotStale c i)
  | .alwaysEvent _ _ => inferInstanceAs (Decidable (¬Stale c))
  | .packet _ _ | .timeEvent _ | .fdEvent _ _ | .call _ | .others _ => isTrue trivial

/-- The events of the connection that are registered are still to be called, or the timer is
pending. -/
def Served (rest : List Event) (c : Conn) : Prop :=
  ∀ e ∈ c.ev.alwaysEventList, c.owns e = true → e ∈ rest ∨ Armed c

/-- What `event_loop` has done for the output of the connection. -/
def LoopPhase.Serves (c : Conn) : LoopPhase → Prop
  | .select => Served [] c
  | .events => True
  | .always rest => Served rest c

/-! ## One call of `do_tcb_write` -/

/-- Only data arm the timer. -/
theorem emitSegment_eTimeout (c : Conn) (data : List Uchar) (fin : Bool) (now : Timeval) :
    (emitSegment c data fin now).tcb.eTimeout = none ↔ c.tcb.eTimeout = none ∧ data = [] := by
  have hrtt : ∀ t : Tcb, (startRtt t data.length now).eTimeout = t.eTimeout := by
    intro t
    rw [startRtt]
    split <;> rfl
  simp only [emitSegment]
  split
  · next harm =>
      have hne : data ≠ [] := List.length_pos_iff.mp harm.2
      simp [sendPkt, advanceNxt, makeTcpHdr, hrtt, setTimeout, hne]
  · next hnot =>
      simp only [sendPkt, advanceNxt, makeTcpHdr, hrtt]
      refine ⟨fun hnone => ⟨hnone, ?_⟩, And.left⟩
      by_contra hne
      exact hnot ⟨by rw [hnone]; rfl, List.length_pos_iff.mpr hne⟩

/-- What asks to be called again has something to send, or is closing and has room for a FIN. -/
theorem sendAgain_cases {t : Tcb} (h : sendAgain t = true) : 0 < windowSize t ∧
    (t.state = .established ∧ 0 < rbAvail t.outbuf t.sndNxt ∨
      isClosingState t.state = true ∧ -1 < rbAvail t.outbuf t.sndNxt) := by
  rw [sendAgain] at h
  split at h
  · next hs =>
      obtain ⟨hwnd, havail⟩ : 0 < windowSize t ∧ 0 < rbAvail t.outbuf t.sndNxt := by simpa using h
      exact ⟨hwnd, .inl ⟨hs, havail⟩⟩
  iterate 3
    · next hs =>
        obtain ⟨hwnd, havail⟩ : 0 < windowSize t ∧ -1 < rbAvail t.outbuf t.sndNxt := by
          simpa using h
        exact ⟨hwnd, .inr ⟨by rw [hs]; rfl, havail⟩⟩
  · cases h

/-- A segment without data that leaves more to be sent is the FIN of a stale connection. -/
theorem stale_of_sendAgain (hmss : c.tcb.mss ≠ 0) (hdata : sendData c.tcb = some [])
    (hnone : c.tcb.eTimeout = none)
    (hmore : sendAgain (emitSegment c [] (finDue c.tcb 0) now).tcb = true) : Stale c := by
  obtain ⟨l, n, e, k, m, r, w, la, heq⟩ := emitSegment_eq c [] (finDue c.tcb 0) now
  rw [heq] at hmore
  obtain ⟨hwnd, hstate⟩ := sendAgain_cases hmore
  dsimp only [windowSize, List.length_nil] at hwnd hstate
  rw [BitVec.add_zero] at hwnd hstate
  cases hfin : finDue c.tcb 0 with
  | false =>
      -- the block is as it was before, and so are its window and what is available
      rw [hfin] at hwnd hstate
      simp only [Bool.false_eq_true, if_false] at hwnd hstate
      rw [show c.tcb.sndNxt + 0 = c.tcb.sndNxt from BitVec.add_zero _] at hwnd hstate
      have hopen : 0 < windowSize c.tcb := hwnd
      have havail : ¬0 < rbAvail c.tcb.outbuf c.tcb.sndNxt := fun hpos =>
        sendData_ne_nil hmss hopen hpos hdata rfl
      rcases hstate with ⟨-, hpos⟩ | ⟨hclosing, hpos⟩
      · exact absurd hpos havail
      · have hzero : rbAvail c.tcb.outbuf c.tcb.sndNxt = 0 := by omega
        have hdue : finDue c.tcb 0 = true := by
          simp [finDue, hclosing, hzero, hopen]
        rw [hfin] at hdue
        cases hdue
  | true =>
      rw [hfin] at hwnd hstate
      simp only [if_true] at hwnd hstate
      obtain ⟨⟨hopen, hzero⟩, hclosing⟩ : (0 < windowSize c.tcb ∧
          rbAvail c.tcb.outbuf c.tcb.sndNxt = 0) ∧ isClosingState c.tcb.state = true := by
        simpa [finDue] using hfin
      have hest := (ne_of_isClosingState hclosing).2.1
      have hleft := (hstate.resolve_left fun hs => hest hs.1).2
      rw [windowSize] at hopen
      rw [SeqNum.toInt_sub_succ (by decide) (by omega)] at hwnd
      refine ⟨hclosing, hnone, by rw [windowSize]; omega, ?_⟩
      by_contra hnear
      rw [rbAvail, if_neg (by simpa using hnear)] at hzero
      rw [rbAvail, SeqNum.toInt_sub_succ (by decide) (by omega), hzero] at hleft
      split at hleft <;> omega

/-- `do_tcb_write` asks to be called again only with the timer pending, unless the connection
is stale. -/
theorem wrote_armed {again : Bool} (h : TimerOk False c) (hlive : c.live = true)
    (hmss : c.tcb.mss ≠ 0) (hok : ¬Stale c) (hw : Wrote c now a again) (hagain : again = true) :
    Armed a := by
  cases hw with
  | syn => cases hagain
  | nothing => cases hagain
  | @segment data b e hsyn hdata hb he =>
      have hmore : sendAgain b.tcb = true := by
        by_contra hno
        rw [if_neg hno] at he
        subst he
        cases hagain
      have hstate : b.tcb.state = c.tcb.state := by
        obtain ⟨_, _, _, _, _, _, _, _, heq⟩ := emitSegment_eq c data (finDue c.tcb data.length) now
        rw [hb, heq]
      have hret : retransmits c.tcb.state = true := by
        rcases (sendAgain_cases hmore).2 with ⟨hs, -⟩ | ⟨hs, -⟩
        · rw [← hstate, hs]
          rfl
        · rw [hstate] at hs
          cases hcs : c.tcb.state <;> simp_all [retransmits, isClosingState]
      have hg : Guarded False b :=
        hb ▸ emitSegment_guarded (h.guarded hlive hret) False.elim
      rcases hg with ⟨hidle, -⟩ | harmed
      · have hbare := hidle.eTimeout
        rw [hb, emitSegment_eTimeout] at hbare
        obtain ⟨hnone, rfl⟩ := hbare
        rw [hb] at hmore
        exact absurd (stale_of_sendAgain hmss hdata hnone hmore) hok
      · exact harmed.of_eq rfl rfl rfl

/-- A stale connection sends its FIN, keeps the event and gets no timer. -/
theorem doTcbWrite_of_stale (now : Timeval) (h : Stale c) (hpend : c.tcb.eTcbSend.isSome = true) :
    ∃ a, doTcbWrite c now = some (a, true) ∧ a.ev = c.ev ∧ a.self = c.self := by
  obtain ⟨hclosing, hnone, hwnd, hback⟩ := h
  have hsyn := (ne_of_isClosingState hclosing).1
  have havail : rbAvail c.tcb.outbuf c.tcb.sndNxt = 0 := if_pos hback
  have hdata : sendData c.tcb = some [] := if_neg fun hs => by omega
  have hopen : 0 < windowSize c.tcb := by omega
  have hfin : finDue c.tcb 0 = true := by simp [finDue, hopen, havail, hclosing]
  obtain ⟨x, hx⟩ : ∃ x, x = emitSegment c [] true now := ⟨_, rfl⟩
  have hunarmed : ¬(c.tcb.eTimeout.isNone = true ∧ ([] : List Uchar).length > 0) := by simp
  have hev : x.ev = c.ev ∧ x.self = c.self ∧ x.tcb.eTcbSend = c.tcb.eTcbSend := by
    rw [hx, emitSegment]
    dsimp only
    rw [if_neg hunarmed]
    exact ⟨rfl, rfl, by rw [startRtt]; split <;> rfl⟩
  have hmore : sendAgain x.tcb = true := by
    obtain ⟨l, n, e, k, m, r, w, la, heq⟩ := emitSegment_eq c [] true now
    rw [windowSize] at hwnd
    have hsize : 0 < (c.tcb.sndMax - (c.tcb.sndNxt + 1)).toInt := by
      rw [SeqNum.toInt_sub_succ (by decide) (by omega)]
      omega
    have hleft : -1 < rbAvail c.tcb.outbuf (c.tcb.sndNxt + 1) := by
      rw [rbAvail, SeqNum.toInt_sub_succ (by decide) (by omega)]
      split <;> omega
    rw [hx, heq]
    simp only [List.length_nil, if_true, BitVec.add_zero]
    cases hs : c.tcb.state <;> rw [hs] at hclosing <;>
      simp_all [isClosingState, sendAgain, windowSize]
  refine ⟨x, ?_, hev.1, hev.2.1⟩
  rw [doTcbWrite, if_neg hsyn, tcpSendAndAck, hdata]
  simp [hfin, ← hx, hmore, hev.2.2, hpend]

/-- The buffer reaches back to `snd_nxt` as long as the SYN/ACKs do not use up the sequence
space. -/
theorem not_stale_of_fewSynAcks (h : Reached (fun c i => AcksSent c i ∧ FewSynAcks c i) c) :
    ¬Stale c := by
  rintro ⟨hclosing, -, -, hback⟩
  have hsyn := (ne_of_isClosingState hclosing).1
  obtain ⟨u, n, hsending⟩ := (stream_of_reached h).sending hsyn
  have hle := hsending.le
  have hheld : 1 + c.trace.written.length ≤ u + c.tcb.outbuf.used := hsending.held
  have hdist : (c.tcb.outbuf.wSeq - c.tcb.sndNxt).toInt = (1 + c.trace.written.length : ℤ) - n :=
    hsending.avail.1
  omega

/-! ## The pass over the always events -/

theorem Wrote.alwaysEventList {again : Bool} (h : Wrote c now a again) :
    a.self = c.self ∧ a.ev.alwaysEventList = c.ev.alwaysEventList := by
  cases h with
  | syn => exact ⟨rfl, rfl⟩
  | nothing => exact ⟨rfl, rfl⟩
  | segment _ _ hb _ =>
      obtain ⟨_, _, _, _, _, _, _, _, heq⟩ := emitSegment_eq c _ _ now
      rw [hb, heq]
      exact ⟨rfl, rfl⟩

/-- After the event has been called it is gone, or the timer is pending. -/
theorem served_of_run {e : Event} {rest : List Event} (hq : Queued c) (ht : TimerOk False c)
    (hmss : c.tcb.mss ≠ 0) (hok : ¬Stale c) (hlive : c.live = true)
    (hrun : runAlwaysEvent c e.addr now = some c') : Served rest c' := by
  obtain ⟨x, hx, haddr, hdata, b, again, hw, rfl⟩ := runAlwaysEvent_cases hrun
  have hptr := hq.pending hlive hx (owns_of_tcb hdata)
  cases again with
  | true => exact fun _ _ _ => .inr (wrote_armed ht hlive hmss hok hw rfl)
  | false =>
      intro y hmem hown
      obtain ⟨hy, hne⟩ := mem_delEvent.mp hmem
      obtain ⟨hself, halways⟩ := hw.alwaysEventList
      have hown' : c.owns y = true := by
        simpa only [Conn.owns, hself, Bool.false_eq_true, if_false] using hown
      have hptr' := hq.pending hlive (halways ▸ hy) hown'
      rw [hptr, haddr] at hptr'
      exact absurd (Option.some.inj hptr').symm hne

/-- The events of other connections come and go. -/
theorem Served.others {e : Event} {rest : List Event} {ev : EventLists} (h : Served (e :: rest) c)
    (hown : c.owns e = false) (hev : othersChanged c ev) : Served rest { c with ev := ev } := by
  obtain ⟨-, htime, -, halways⟩ := hev
  intro x hmem hx
  have hx : c.owns x = true := hx
  have hold := List.mem_filter.mp (halways ▸ List.mem_filter.mpr ⟨hmem, hx⟩)
  rcases h x hold.1 hx with hin | ⟨t, hlist, hptr⟩
  · rcases List.mem_cons.mp hin with rfl | hin
    · rw [hown] at hx
      cases hx
    · exact .inl hin
  · exact .inr ⟨t, htime.trans hlist, hptr⟩

theorem timerOk_of_reached {ok : Conn → Input → Prop} (h : Reached ok c) : TimerOk False c :=
  h.invariant (fun _ _ => .of_start)
    fun _ _ _ hwf hinv _ hlive hstep => hinv.stepped hwf hlive False.elim hstep

/-- What `event_loop` has called in this pass is gone, or has the timer pending. -/
theorem serves_of_looped {l : LoopState} (h : Looped NotStale l) : l.phase.Serves l.conn := by
  apply h.invariant
  · exact fun _ _ _ => trivial
  · intro l l' hl hinv hstep
    have hreach := hl.reached
    cases hstep with
    | selected => trivial
    | event => trivial
    | turn => exact fun _ hmem _ => .inl hmem
    | @visit e rest now c hp hown hok hstep =>
        have hmss : l.conn.tcb.mss ≠ 0 := by
          rw [mss_of_reached hreach]
          decide
        obtain ⟨hlive, hexact⟩ := step_exact hstep
        cases hexact with
        | alwaysEvent hrun =>
            exact served_of_run (.of_reached hreach) (timerOk_of_reached hreach) hmss hok hlive hrun
    | @pass e rest ev c hp hown hok hstep =>
        rw [hp] at hinv
        obtain ⟨-, hstepped⟩ := step_cases hstep
        cases hstepped with
        | others hev => exact Served.others hinv hown hev
    | again hp =>
        rw [hp] at hinv
        exact hinv

/-- In every run in which `do_tcb_write` does not find the connection stale, `event_loop` does
not wait in `select` while the write event of the connection is registered: there is a time
event, and its remaining time does not count. -/
theorem polls_of_notStale {l : LoopState} (h : Looped NotStale l) (hphase : l.phase = .select)
    (hwrite : ∃ e ∈ l.conn.ev.alwaysEventList, e.func = .doTcbWrite ∧ e.data = .tcb l.conn.self) :
    l.conn.ev.timeEventList ≠ [] ∧ ∀ now, loopWait l.conn.ev now = .dont ∨
      loopWait l.conn.ev now = .upTo ⟨0, 0⟩ := by
  obtain ⟨e, hmem, -, hdata⟩ := hwrite
  have hserved := serves_of_looped h
  rw [hphase] at hserved
  have harmed : Armed l.conn := (hserved e hmem (owns_of_tcb hdata)).resolve_left (by nofun)
  obtain ⟨x, hx, -⟩ := harmed.covered
  have hne : l.conn.ev.timeEventList ≠ [] := List.ne_nil_of_mem hx
  refine ⟨hne, fun now => ?_⟩
  have halways : l.conn.ev.alwaysEventList ≠ [] := List.ne_nil_of_mem hmem
  obtain ⟨y, rest, hlist⟩ := List.exists_cons_of_ne_nil hne
  rw [loopWait, hlist]
  dsimp only
  rw [if_pos halways]
  split
  · exact .inr rfl
  · exact .inl rfl

/-- One iteration in which the given events are due or ready, and the write event runs if it is
registered. -/
def iteration (is : List Input) (written : Bool) : List LoopInput :=
  is.map .event ++ .turn :: (if written then [.visit ⟨0, 0⟩] else []) ++ [.again]

/-- More than a segment has been written, and the window is wide enough for it. -/
theorem polls_of_notStale_long : ∃ l, Looped NotStale l ∧ l.phase = .select ∧
    (∃ e ∈ l.conn.ev.alwaysEventList, e.func = .doTcbWrite ∧ e.data = .tcb l.conn.self) ∧
      l.conn.ev.timeEventList ≠ [] := by
  have hexec : (loopExec NotStale .tcpMapCb 0 (clientSyn 8192) (.connected 5)
      (iteration [] true ++ .selected :: iteration [client 1001 0x10001 0x10 8192 []] false ++
        .selected :: iteration [.fdEvent 1 (.read (.data [7]))] true ++
        .selected :: iteration [client 1001 0x10002 0x10 8192 [],
          .fdEvent 1 (.read (.data (List.replicate 1300 8)))] true)).any
      (fun l => l.phase = .select ∧ ∃ e ∈ l.conn.ev.alwaysEventList,
        e.func = .doTcbWrite ∧ e.data = .tcb l.conn.self) = true := by
    decide +kernel
  obtain ⟨l, hl, hp⟩ := looped_of_exec hexec
  obtain ⟨hphase, hwrite⟩ := of_decide_eq_true hp
  exact ⟨l, hl, hphase, hwrite, (polls_of_notStale hl hphase hwrite).1⟩

/-! ## A handshake through half the sequence space

Every SYN/ACK takes a sequence number, but the buffer starts behind the first. After more than
`2 ^ 31` of them `snd_nxt` seems to lie before the buffer. -/

section

variable {isn : Uint} {k : ℕ} {received sent : List Segment} {e : Option ℕ} {l : List Event}

theorem synAcksOpened_back (hhalf : 2 ^ 31 + 1 < k + 3) (hk : k + 3 < 2 ^ 32) :
    0 < ((synAcksOpened isn k received sent e l).tcb.outbuf.wSeq -
      (synAcksOpened isn k received sent e l).tcb.sndNxt).toInt := by
  have hend : SeqNum.At (nextIsn isn) (synAcksOpened isn k received sent e l).tcb.outbuf.wSeq
      (0 + 1 + 2 ^ 32) := SeqNum.At.wrap (SeqNum.At.succ SeqNum.at_zero)
  have hnxt : SeqNum.At (nextIsn isn) (synAcksOpened isn k received sent e l).tcb.sndNxt (k + 3) :=
    rfl
  rw [hend.toInt_sub hnxt (by push_cast; omega) (by push_cast; omega)]
  push_cast
  omega

/-- The write event finds nothing to send. -/
theorem synAcksOpened_write (hhalf : 2 ^ 31 + 1 < k + 3) (hk : k + 3 < 2 ^ 32) :
    step (synAcksOpened isn k received sent (some (k + 4)) [⟨k + 4, .doTcbWrite, .tcb 0, .always⟩])
        (.alwaysEvent (k + 4) ⟨0, 0⟩) = some (synAcksOpened isn k received sent none []) := by
  obtain ⟨c, hc⟩ : ∃ c, c = synAcksOpened isn k received sent (some (k + 4))
    [⟨k + 4, .doTcbWrite, .tcb 0, .always⟩] := ⟨_, rfl⟩
  have hback : 0 < (c.tcb.outbuf.wSeq - c.tcb.sndNxt).toInt := hc ▸ synAcksOpened_back hhalf hk
  have hused : c.tcb.outbuf.used = 0 := by rw [hc]; rfl
  have hstate : c.tcb.state = .established := by rw [hc]; rfl
  have havail : rbAvail c.tcb.outbuf c.tcb.sndNxt = 0 := if_pos (by rw [hused]; exact hback)
  have hdata : sendData c.tcb = some [] := if_neg fun hs => by omega
  have hfin : finDue c.tcb 0 = false := by simp [finDue, hstate, isClosingState]
  have hacked : c.tcb.lastAcked ≥ c.tcb.rcvNxt := by rw [hc]; exact BitVec.le_refl (1001 : Uint)
  have hwrite : doTcbWrite c ⟨0, 0⟩ =
      some ({ c with tcb := { c.tcb with eTcbSend := none } }, false) := by
    simp [doTcbWrite, hstate, tcpSendAndAck, hdata, hfin, hacked]
  have hlive : c.live = true := by rw [hc]; rfl
  have hfind : findEvent c.ev.alwaysEventList (k + 4) (.tcb c.self) =
      some ⟨k + 4, .doTcbWrite, .tcb 0, .always⟩ := by
    rw [hc]
    simp [findEvent, synAcksOpened, synAcks]
  rw [← hc, step, if_pos hlive]
  simp only [runAlwaysEvent, hfind, Option.bind_some, hwrite, Option.map_some]
  rw [hc]
  simp [synAcksOpened, removeAlwaysEvent, delEvent]

/-- The end of the IPv4 stream makes the connection stale. -/
theorem synAcksOpened_eof (isn : Uint) (received sent : List Segment)
    (hhalf : 2 ^ 31 + 1 < k + 3) (hk : k + 3 < 2 ^ 32) : ∃ c,
    step (synAcksOpened isn k received sent none []) (.fdEvent (k + 3) (.read .eof)) = some c ∧
      Stale c ∧ c.self = 0 ∧ c.live = true ∧ c.tcb.eTcbSend = some (k + 5) ∧
        c.ev = ⟨[], [], [⟨k + 5, .doTcbWrite, .tcb 0, .always⟩], k + 6⟩ := by
  obtain ⟨c, hc⟩ : ∃ c, c = synAcksOpened isn k received sent none [] := ⟨_, rfl⟩
  obtain ⟨a, ha⟩ : ∃ a : Conn, a =
      { c with
        map := none
        ev := ⟨[], [], [⟨k + 5, .doTcbWrite, .tcb 0, .always⟩], k + 6⟩
        tcb := { c.tcb with
          cb := none, rcvWnd := 1000, state := .finWait1, eTcbSend := some (k + 5) }
        trace := { c.trace with closed := true } } := ⟨_, rfl⟩
  have hread : handleFdCanRead c .eof =
      some ({ a with ev := { a.ev with fdEventList := c.ev.fdEventList } }, false) := by
    rw [ha, hc]
    rfl
  have hlive : c.live = true := by rw [hc]; rfl
  have hfind : findEvent c.ev.fdEventList (k + 3) (.tcpMap c.self) =
      some ⟨k + 3, .handleFdCanRead, .tcpMap 0, .fd 5 false⟩ := by
    rw [hc]
    simp [findEvent, synAcksOpened, synAcks]
  have hstep : step c (.fdEvent (k + 3) (.read .eof)) = some a := by
    rw [step, if_pos hlive]
    simp only [runFdEvent, hfind, Option.bind_some, hread, Option.map_some]
    rw [ha, hc]
    simp [synAcksOpened, removeFdEvent, delEvent]
  have hstale : Stale a := by
    refine ⟨by rw [ha]; rfl, by rw [ha, hc]; rfl, ?_, ?_⟩
    · have hsize : windowSize a.tcb = 3 := by
        have hdist : nextIsn isn + BitVec.ofNat 32 (k + 3) + 3 -
            (nextIsn isn + BitVec.ofNat 32 (k + 3)) = 3 := by
          rw [BitVec.add_comm, BitVec.add_sub_cancel]
        have hwnd : windowSize a.tcb = (nextIsn isn + BitVec.ofNat 32 (k + 3) + 3 -
            (nextIsn isn + BitVec.ofNat 32 (k + 3))).toInt := by rw [ha, hc]; rfl
        rw [hwnd, hdist]
        decide
      omega
    · have hback : 0 < (c.tcb.outbuf.wSeq - c.tcb.sndNxt).toInt :=
        hc ▸ synAcksOpened_back hhalf hk
      have hused : c.tcb.outbuf.used = 0 := by rw [hc]; rfl
      have hbuf : a.tcb.outbuf = c.tcb.outbuf := by rw [ha]
      have hnxt : a.tcb.sndNxt = c.tcb.sndNxt := by rw [ha]
      rw [hbuf, hnxt, hused]
      exact hback
  refine ⟨a, hc ▸ hstep, hstale, ?_, ?_, ?_, ?_⟩
  · rw [ha, hc]
    rfl
  · rw [ha, hc]
    rfl
  · rw [ha]
  · rw [ha]

/-- One iteration for each SYN/ACK. -/
theorem synAcks_looped (hisn : 0 < (nextIsn isn).toNat)
    (hk : (nextIsn isn).toNat + (k + 3) < 2 ^ 32)
    (h : ∃ received sent, Looped AcksSent ⟨synAcks isn 0 received sent, .events⟩) :
    ∃ received sent, Looped AcksSent ⟨synAcks isn k received sent, .events⟩ := by
  induction k with
  | zero => exact h
  | succ k ih =>
      obtain ⟨received, sent, hl⟩ := ih (by omega)
      have hk' : (nextIsn isn).toNat + (k + 3) < 2 ^ 32 := by omega
      have hack := synAcks_ack hisn hk' received sent
      obtain ⟨x, hwrite⟩ := synAcksAcked_write isn k (received ++ [synAcksAck isn (k + 1)]) sent
      have hacked := hl.event rfl (synAcks_acksSent (by omega) (by omega) hk') hack
      exact ⟨_, _, (hacked.written rfl rfl trivial hwrite).selected⟩

end

/-- `event_loop` waits without a timeout although the write event of the connection is
registered. -/
def WaitsForever (l : LoopState) : Prop :=
  l.phase = .select ∧
    (∃ e ∈ l.conn.ev.alwaysEventList, e.func = .doTcbWrite ∧ e.data = .tcb l.conn.self) ∧
    l.conn.ev.timeEventList = [] ∧ ∀ now, loopWait l.conn.ev now = .forever

/-- After `2 ^ 31 + 2` SYN/ACKs the FIN that follows the empty stream is sent with the event
kept and without a timer. -/
theorem waits_forever_after_synAcks : ∃ l, Looped AcksSent l ∧ WaitsForever l := by
  have hstart : ∃ received sent, Looped AcksSent ⟨synAcks 0 0 received sent, .events⟩ := by
    have hexec : loopExec AcksSent .tcpMapCb 0 (clientSyn 3) (.connected 5)
        (iteration [] true ++
          .selected :: iteration [client 1001 0 0 0 [], client 1001 0 0 3 []] true ++
          .selected :: iteration [client 1001 0 0 0 [], client 1001 0 0 3 []] true ++
          [.selected]) =
        some ⟨synAcks 0 0
          [clientSyn 3, ⟨1001, 0, 0, 0, []⟩, ⟨1001, 0, 0, 3, []⟩, ⟨1001, 0, 0, 0, []⟩,
            ⟨1001, 0, 0, 3, []⟩]
          [⟨0x10000, 1001, 0x12, 0x4000, []⟩, ⟨0x10001, 1001, 0x12, 0x4000, []⟩,
            ⟨0x10002, 1001, 0x12, 0x4000, []⟩], .events⟩ := rfl
    obtain ⟨c₀, hs, hrun⟩ := Option.bind_eq_some_iff.mp hexec
    exact ⟨_, _, .tcpMapCb, c₀, ⟨0, 0, _, clientSyn 3, .connected 5, freshAddr_empty 0 0, hs⟩,
      Transition.run_of_exec hrun⟩
  have hisn : (nextIsn 0).toNat = 0x10000 := rfl
  obtain ⟨k, hk⟩ : ∃ k, k + 3 = 2 ^ 31 + 2 := ⟨2 ^ 31 - 1, rfl⟩
  have hspace : (nextIsn 0).toNat + (k + 3) < 2 ^ 32 := by omega
  obtain ⟨received, sent, hl⟩ := synAcks_looped (by omega) hspace hstart
  -- the handshake is over, and nothing is left to be sent
  have hl := hl.event rfl (synAcks_acksSent (by omega) le_rfl hspace)
    (synAcks_opened (by omega) hspace received sent)
  have hl := (hl.written rfl rfl trivial (synAcksOpened_write (by omega) (by omega))).selected
  -- the end of the IPv4 stream, and the FIN
  obtain ⟨c, hstep, hstale, hself, hlive, hptr, hev⟩ := synAcksOpened_eof 0
    (received ++ [synAcksAck 0 (k + 3)]) sent (k := k) (by omega) (by omega)
  have hl := hl.event (j := .fdEvent (k + 3) (.read .eof)) rfl trivial hstep
  obtain ⟨a, hwrite, haev, haself⟩ := doTcbWrite_of_stale ⟨0, 0⟩ hstale
    (by rw [hptr]; rfl)
  have hfind : findEvent c.ev.alwaysEventList (k + 5) (.tcb c.self) =
      some ⟨k + 5, .doTcbWrite, .tcb 0, .always⟩ := by
    rw [hev, hself]
    simp [findEvent]
  have hrun : step c (.alwaysEvent (k + 5) ⟨0, 0⟩) = some a := by
    rw [step, if_pos hlive]
    simp only [runAlwaysEvent, hfind, Option.bind_some, hwrite, Option.map_some, if_true]
  have hl := hl.written (by rw [hev]) (owns_of_tcb (by rw [hself])) trivial hrun
  refine ⟨_, hl, rfl, ?_, ?_, fun now => ?_⟩
  · refine ⟨⟨k + 5, .doTcbWrite, .tcb 0, .always⟩, ?_, rfl, ?_⟩
    · rw [haev, hev]
      exact List.mem_singleton_self _
    · rw [haself, hself]
  · rw [haev, hev]
  · rw [haev, hev]
    rfl

end Ptrtd
