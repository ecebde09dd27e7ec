import Ptrtd.Verification.Relay.Registration
import Ptrtd.Verification.Send.Limits

/-! # The timer and what is in flight

The retransmission timer is pending only while something is in flight, and its mark is not
beyond `snd_nxt`. So whenever everything is acknowledged the timer has been stopped, which is
what `TIME_WAIT` relies on when it overwrites `e_timeout`. -/

namespace Ptrtd

open Registry

variable {a c c' : Conn} {i : Input} {s : Segment} {now : Timeval} {b w u n : ℕ}

/-- Only the timer that ends `TIME_WAIT` is pending. -/
def Waiting (c : Conn) : Prop :=
  ∃ e, c.timers = [e] ∧ c.tcb.eTimeout = some e.addr ∧ e.func = .tcpRemove ∧ e.data = .tcb c.self

/-- A timer that is pending belongs to something in flight. -/
def Marked (c : Conn) : Prop :=
  c.tcb.eTimeout.isSome = true →
    c.tcb.sndUna < c.tcb.sndNxt ∧ c.tcb.timeoutMark ≤ c.tcb.sndNxt

/-- The timers of an allocated block outside the states in which it retransmits, and the mark of
the retransmission timer. -/
structure Rested (c : Conn) : Prop where
  fin : c.tcb.state = .finWait2 → Unarmed c
  wait : c.tcb.state = .timeWait → Waiting c
  known : c.tcb.state = .synRecvd ∨ c.tcb.state = .finWait2 ∨ c.tcb.state = .timeWait ∨
    retransmits c.tcb.state = true
  mark : retransmits c.tcb.state = true → Marked c

theorem Waiting.of_eq (h : Waiting c) (hself : c'.self = c.self)
    (htime : c'.ev.timeEventList = c.ev.timeEventList) (he : c'.tcb.eTimeout = c.tcb.eTimeout) :
    Waiting c' := by
  obtain ⟨e, hlist, hptr, hfunc, hdata⟩ := h
  exact ⟨e, (timers_eq hself htime).trans hlist, he.trans hptr, hfunc,
    hdata.trans (by rw [hself])⟩

theorem Marked.of_eq (h : Marked c) (he : c'.tcb.eTimeout = c.tcb.eTimeout)
    (huna : c'.tcb.sndUna = c.tcb.sndUna) (hnxt : c'.tcb.sndNxt = c.tcb.sndNxt)
    (hmark : c'.tcb.timeoutMark = c.tcb.timeoutMark) : Marked c' := by
  rw [Marked, he, huna, hnxt, hmark]
  exact h

theorem Marked.of_none (h : c.tcb.eTimeout = none) : Marked c := by
  rw [Marked, h]
  nofun

/-- Nothing in flight, no timer. -/
theorem Guarded.unarmed (h : Guarded False c) (hmark : Marked c)
    (heq : c.tcb.sndUna = c.tcb.sndNxt) : Unarmed c := by
  rcases h with ⟨hidle, -⟩ | ⟨e, -, hptr, -, -⟩
  · exact hidle
  · have hlt := (hmark (by rw [hptr]; rfl)).1
    rw [heq] at hlt
    exact absurd hlt (BitVec.lt_irrefl _)

theorem enterTimeWait_waiting (h : Unarmed c) : Waiting (enterTimeWait c now) := by
  have hown : c.owns ⟨c.ev.next, .tcpRemove, .tcb c.self, .time (timeFuture now 120000)⟩ = true :=
    owns_of_tcb rfl
  exact ⟨_, filter_insertTimeEvent h.timers hown, rfl, rfl, rfl⟩

namespace Rested

theorem of_eq (h : Rested c) (hself : c'.self = c.self)
    (htime : c'.ev.timeEventList = c.ev.timeEventList) (hstate : c'.tcb.state = c.tcb.state)
    (he : c'.tcb.eTimeout = c.tcb.eTimeout) (huna : c'.tcb.sndUna = c.tcb.sndUna)
    (hnxt : c'.tcb.sndNxt = c.tcb.sndNxt) (hmark : c'.tcb.timeoutMark = c.tcb.timeoutMark) :
    Rested c' := by
  refine ⟨fun hs => ?_, fun hs => ?_, ?_, fun hs => ?_⟩
  · exact (h.fin (hstate ▸ hs)).of_eq hself htime he
  · exact (h.wait (hstate ▸ hs)).of_eq hself htime he
  · rw [hstate]
    exact h.known
  · exact (h.mark (hstate ▸ hs)).of_eq he huna hnxt hmark

/-- The block retransmits. -/
theorem of_marked (hret : retransmits c.tcb.state = true) (hmark : Marked c) : Rested c := by
  refine ⟨fun hs => ?_, fun hs => ?_, .inr (.inr (.inr hret)), fun _ => hmark⟩
  · rw [hs] at hret
    cases hret
  · rw [hs] at hret
    cases hret

theorem of_waiting (hstate : c.tcb.state = .timeWait) (h : Waiting c) : Rested c := by
  refine ⟨fun hs => ?_, fun _ => h, .inr (.inr (.inl hstate)), fun hs => ?_⟩
  · rw [hstate] at hs
    cases hs
  · rw [hstate] at hs
    cases hs

theorem of_syn (hstate : c.tcb.state = .synRecvd) : Rested c := by
  refine ⟨fun hs => ?_, fun hs => ?_, .inl hstate, fun hs => ?_⟩ <;>
    · rw [hstate] at hs
      cases hs

/-! ## Segments -/

/-- The timer is stopped when the marked segment is acknowledged. -/
theorem ackTimer_marked {ack : Uint} (huna : c.tcb.sndUna = ack)
    (hmark : c.tcb.eTimeout.isSome = true → c.tcb.timeoutMark ≤ c.tcb.sndNxt) :
    Marked (ackTimer c ack now) := by
  rw [ackTimer]
  split
  · next hnone => exact .of_none hnone
  · next e hsome =>
      dsimp only
      split
      · split
        · next hlt => exact fun _ => ⟨hlt, BitVec.le_refl _⟩
        · exact .of_none rfl
      · next hnot =>
          have hbelow := hmark (by rw [hsome]; rfl)
          rw [ge_iff_le, BitVec.not_le] at hnot
          refine fun _ => ⟨?_, hbelow⟩
          rw [huna]
          exact BitVec.lt_def.mpr ((BitVec.lt_def.mp hnot).trans_le (BitVec.le_def.mp hbelow))

theorem handleNewAck {ack : Uint} (h : Rested c) (hack : handleNewAck c ack now = some c') :
    Rested c' := by
  have hret' : retransmits c.tcb.state = true → retransmits c'.tcb.state = true := by
    obtain ⟨_, _, _, _, _, _, _, _, -, -, -, rfl⟩ := handleNewAck_eq hack
    exact id
  obtain ⟨r, d, heq⟩ := ackUna_eq c.tcb ack now
  rw [Ptrtd.handleNewAck, heq] at hack
  dsimp only at hack
  -- what is common to the states with a timer
  have hbase : ∀ x : Conn, retransmits c.tcb.state = true → x.tcb.eTimeout = c.tcb.eTimeout →
      x.tcb.sndUna = ack → x.tcb.sndNxt = (if ack > c.tcb.sndNxt then ack else c.tcb.sndNxt) →
      x.tcb.timeoutMark = c.tcb.timeoutMark → Marked (ackTimer x ack now) := by
    intro x hret he huna hnxt hmark
    have hgrow : c.tcb.sndNxt ≤ x.tcb.sndNxt := by
      rw [hnxt]
      split
      · next hgt => exact BitVec.le_of_lt hgt
      · exact BitVec.le_refl _
    refine ackTimer_marked huna fun hsome => ?_
    rw [he] at hsome
    rw [hmark]
    exact BitVec.le_trans (h.mark hret hsome).2 hgrow
  split at hack
  · next hest =>
      have hret : retransmits c.tcb.state = true := by rw [hest]; rfl
      obtain ⟨x, hx, rfl⟩ := Option.map_eq_some_iff.mp hack
      obtain ⟨-, m, l, k, -, rfl⟩ := cbOutputBufferSpace_change hx
      exact .of_marked (hret' hret) (hbase _ hret rfl rfl rfl rfl)
  iterate 3
    · next hs =>
        have hret : retransmits c.tcb.state = true := by rw [hs]; rfl
        cases hack
        exact .of_marked (hret' hret) (hbase _ hret rfl rfl rfl rfl)
  · next hest hfin hclosing hlast =>
      cases hack
      refine ⟨fun hs => (h.fin hs).of_eq rfl rfl rfl, fun hs => (h.wait hs).of_eq rfl rfl rfl,
        h.known, fun hs => ?_⟩
      have hret : retransmits c.tcb.state = true := hs
      cases hst : c.tcb.state <;> simp_all [retransmits]

theorem handleAllAcked {f : Flow} (h : Rested c) (htimer : TimerOk False c) (hlive : c.live = true)
    (heq : c.tcb.sndUna = c.tcb.sndNxt) (hf : handleAllAcked c now = some f)
    (hlive' : f.conn.live = true) : Rested f.conn := by
  have hidle : retransmits c.tcb.state = true → Unarmed c := fun hret =>
    (htimer.guarded hlive hret).unarmed (h.mark hret) heq
  cases handleAllAcked_effect hf with
  | opened hstate _ hchange =>
      obtain ⟨m, l, k, -, rfl⟩ := hchange
      exact .of_marked rfl (.of_none (htimer.syn hlive hstate).eTimeout)
  | deleted => cases hlive'
  | finAcked hstate _ =>
      have hunarmed := hidle (by rw [hstate]; rfl)
      exact ⟨fun _ => hunarmed.of_eq rfl rfl rfl, nofun, .inr (.inl rfl), nofun⟩
  | bothClosed hstate _ =>
      exact .of_waiting rfl (enterTimeWait_waiting (hidle (by rw [hstate]; rfl)))
  | stillClosing => exact h
  | other => exact h

theorem handleAck {f : Flow} (h : Rested c) (htimer : TimerOk False c) (hlive : c.live = true)
    (hf : handleAck c s now = some f) (hlive' : f.conn.live = true) : Rested f.conn := by
  rcases handleAck_cases hf with ⟨-, rfl⟩ | ⟨-, x, hnew, hall⟩
  · exact h
  · obtain ⟨hx, htx, hlx⟩ : Rested x ∧ TimerOk False x ∧ x.live = true := by
      rcases hnew with ⟨hlt, hnew⟩ | ⟨-, rfl⟩
      · refine ⟨h.handleNewAck hnew, handleNewAck_timerOk htimer hlt hnew, ?_⟩
        obtain ⟨_, _, _, _, _, _, _, _, -, -, -, rfl⟩ := handleNewAck_eq hnew
        exact hlive
      · exact ⟨h, htimer, hlive⟩
    rcases hall with ⟨heq, hall⟩ | ⟨-, rfl⟩
    · exact hx.handleAllAcked htx hlx heq hall hlive'
    · exact hx

theorem tcpRecvData {fin : Bool} (h : Rested c) (hrecv : tcpRecvData c s = some (c', fin)) :
    Rested c' := by
  obtain ⟨-, m, ev, e, r, w, x, -, -, htime, rfl⟩ := tcpRecvData_eq hrecv
  exact h.of_eq rfl htime rfl rfl rfl rfl rfl

theorem handleWindow (h : Rested c) (s : Segment) : Rested (handleWindow c s) := by
  obtain ⟨l, k, e, heq⟩ := handleWindow_eq c s
  rw [heq]
  exact h.of_eq rfl rfl rfl rfl rfl rfl rfl

theorem handleData (h : Rested c) (hdata : handleData c s now = some c') : Rested c' := by
  cases handleData_effect hdata with
  | ignored => exact h
  | data _ hrecv _ => exact h.tcpRecvData hrecv
  | @finWait2 x hstate hrecv =>
      have hx : x.tcb.state = c.tcb.state := by
        obtain ⟨-, _, _, _, _, _, _, -, -, -, rfl⟩ := tcpRecvData_eq hrecv
        rfl
      exact .of_waiting rfl (enterTimeWait_waiting ((h.tcpRecvData hrecv).fin (hx.trans hstate)))
  | @finWait1 x hstate hrecv =>
      have hx : x.tcb.state = c.tcb.state := by
        obtain ⟨-, _, _, _, _, _, _, -, -, -, rfl⟩ := tcpRecvData_eq hrecv
        rfl
      have hmark := (h.tcpRecvData hrecv).mark (by rw [hx, hstate]; rfl)
      exact .of_marked rfl (hmark.of_eq rfl rfl rfl rfl)
  | @closeWait x _ hstate _ hrecv hclose =>
      have hx : x.tcb.state = c.tcb.state := by
        obtain ⟨-, _, _, _, _, _, _, -, -, -, rfl⟩ := tcpRecvData_eq hrecv
        rfl
      have hmark := (h.tcpRecvData hrecv).mark (by rw [hx, hstate]; rfl)
      obtain ⟨m, ev, e, b, -, -, -, -, rfl⟩ := tcpRemoteClose_eq rfl hclose
      exact .of_marked rfl (hmark.of_eq rfl rfl rfl rfl)

theorem handleTcp (h : Rested c) (htimer : TimerOk False c) (hlive : c.live = true)
    (htcp : handleTcp c s now = some c') (hlive' : c'.live = true) : Rested c' := by
  rcases handleTcp_cases htcp with ⟨-, hrst⟩ | ⟨-, hdone⟩ | ⟨-, x, hnext, hrest⟩
  · obtain ⟨m, ev, b, -, -, rfl⟩ := handleRst_eq hrst
    cases hlive'
  · exact h.handleAck htimer hlive hdone hlive'
  · have hx : x.live = true := by
      rcases hrest with ⟨-, rfl⟩ | ⟨-, hdata⟩
      · obtain ⟨l, k, e, la, heq⟩ := handleOld_eq x
        rw [heq] at hlive'
        exact hlive'
      · have hout := congrArg Outlet.live (handleWindow_outlet x s)
        obtain ⟨st, hmoved⟩ := (handleData_outlet hdata).eq
        exact hout.symm.trans ((congrArg Outlet.live hmoved).symm.trans hlive')
    have hrested : Rested x := h.handleAck htimer hlive hnext hx
    rcases hrest with ⟨-, rfl⟩ | ⟨-, hdata⟩
    · obtain ⟨l, k, e, la, heq⟩ := handleOld_eq x
      rw [heq]
      exact hrested.of_eq rfl rfl rfl rfl rfl rfl rfl
    · exact (hrested.handleWindow s).handleData hdata

/-! ## Sending -/

/-- A segment without data, or one while the timer is pending, leaves the timer alone. -/
theorem emitSegment_timer (data : List Uchar) (fin : Bool) (now : Timeval)
    (h : data = [] ∨ c.tcb.eTimeout.isSome = true) :
    (emitSegment c data fin now).ev.timeEventList = c.ev.timeEventList ∧
      (emitSegment c data fin now).tcb.eTimeout = c.tcb.eTimeout ∧
      (emitSegment c data fin now).tcb.timeoutMark = c.tcb.timeoutMark := by
  have hno : ¬(c.tcb.eTimeout.isNone = true ∧ data.length > 0) := by
    rcases h with rfl | hsome
    · simp
    · rw [Option.isNone_eq_false_iff.mpr hsome]
      nofun
  have hrtt : (startRtt c.tcb data.length now).eTimeout = c.tcb.eTimeout ∧
      (startRtt c.tcb data.length now).timeoutMark = c.tcb.timeoutMark := by
    rw [startRtt]
    split <;> exact ⟨rfl, rfl⟩
  simp only [emitSegment, if_neg hno]
  exact ⟨rfl, hrtt⟩

/-- A segment with data starts the timer if none is pending, marked with its first byte. -/
theorem emitSegment_mark {data : List Uchar} {fin : Bool} (hdata : data ≠ [])
    (hnone : c.tcb.eTimeout = none) :
    (emitSegment c data fin now).tcb.timeoutMark = c.tcb.sndNxt := by
  have hpos : data.length > 0 := List.length_pos_of_ne_nil hdata
  have hrtt : (startRtt (setTimeout c now).tcb data.length now).timeoutMark = c.tcb.sndNxt := by
    rw [startRtt]
    split <;> rfl
  have hyes : c.tcb.eTimeout.isNone = true ∧ data.length > 0 := ⟨by rw [hnone]; rfl, hpos⟩
  simp only [emitSegment, if_pos hyes]
  exact hrtt

/-- How far a segment that is emitted moves `snd_nxt`. -/
theorem emitSegment_nxt {d : List Uchar} (hw : Windowed c b w u n) (hspace : InSpace c)
    (hdata : sendData c.tcb = some d)
    (hspace' : InSpace (emitSegment c d (finDue c.tcb d.length) now)) :
    (emitSegment c d (finDue c.tcb d.length) now).tcb.sndNxt.toNat =
      c.tcb.sndNxt.toNat + (d.length + (if finDue c.tcb d.length then 1 else 0)) := by
  have hend := hw.segment_le hdata
  have hbase := hw.base
  have hle := hw.le
  have hsent := hw.sent
  have hwnd := hw.wnd
  have hnear := hw.near
  obtain ⟨l, m, e, k, r, q, v, la, heq⟩ := emitSegment_eq c d (finDue c.tcb d.length) now
  obtain ⟨len, hlen⟩ : ∃ len, len = d.length + (if finDue c.tcb d.length then 1 else 0) :=
    ⟨_, rfl⟩
  rw [← hlen] at hend ⊢
  have hat : SeqNum.At c.tcb.iss (emitSegment c d (finDue c.tcb d.length) now).tcb.sndNxt
      (n + len) := by
    rw [heq, hlen]
    have hadd := hw.nxt.add (d.length + (if finDue c.tcb d.length then 1 else 0))
    rwa [← Outlet.advanceNxt_eq] at hadd
  have hhigh : (emitSegment c d (finDue c.tcb d.length) now).trace.high =
      max c.trace.high (n + len) := by
    have hreach : (emitSegment c d (finDue c.tcb d.length) now).trace.high =
        SeqNum.reach c.tcb.iss c.trace.high (c.tcb.sndNxt + BitVec.ofNat 32 len) := by
      rw [heq, hlen]
      exact congrArg (fun k => SeqNum.reach c.tcb.iss c.trace.high
        (c.tcb.sndNxt + BitVec.ofNat 32 k)) (Outlet.span_of_sendFlags rfl)
    rw [hreach]
    exact SeqNum.reach_eq_max (hw.nxt.add len) (by push_cast; omega) (by push_cast; omega)
  have hiss : (emitSegment c d (finDue c.tcb d.length) now).tcb.iss = c.tcb.iss := by rw [heq]
  rw [InSpace, hiss, hhigh] at hspace'
  rw [InSpace] at hspace
  rw [hat.toNat_eq (by omega), hw.nxt.toNat_eq (by omega)]
  omega

theorem emitSegment_marked {d : List Uchar} (h : Marked c) (hw : Windowed c b w u n)
    (hspace : InSpace c) (hdata : sendData c.tcb = some d)
    (hspace' : InSpace (emitSegment c d (finDue c.tcb d.length) now)) :
    Marked (emitSegment c d (finDue c.tcb d.length) now) := by
  have hnxt := emitSegment_nxt hw hspace hdata hspace'
  have huna : (emitSegment c d (finDue c.tcb d.length) now).tcb.sndUna = c.tcb.sndUna := by
    obtain ⟨_, _, _, _, _, _, _, _, heq⟩ := emitSegment_eq c d (finDue c.tcb d.length) now
    rw [heq]
  intro hsome
  rw [huna, BitVec.lt_def, BitVec.le_def, hnxt]
  by_cases hquiet : d = [] ∨ c.tcb.eTimeout.isSome = true
  · obtain ⟨-, he, hmark⟩ := emitSegment_timer d (finDue c.tcb d.length) now hquiet
    rw [he] at hsome
    obtain ⟨hlt, hle⟩ := h hsome
    rw [BitVec.lt_def] at hlt
    rw [BitVec.le_def] at hle
    rw [hmark]
    omega
  · obtain ⟨hne, hnone⟩ := not_or.mp hquiet
    have hnone : c.tcb.eTimeout = none := by simpa using hnone
    have hpos : 0 < d.length := List.length_pos_of_ne_nil hne
    have hword := hw.nxt.toNat_eq (by
      have := hw.sent
      rw [InSpace] at hspace
      omega)
    have hword' := hw.una
    have hle := hw.le
    rw [emitSegment_mark hne hnone]
    omega

/-- In `FIN_WAIT_2` there is nothing left to send. -/
theorem sendData_finWait2 {d : List Uchar} (hw : Windowed c b w u n) (hkept : c.outlet.Kept u)
    (hspace : InSpace c) (hstate : c.tcb.state = .finWait2) (hdata : sendData c.tcb = some d) :
    d = [] := by
  obtain ⟨hu, -⟩ := hkept.finWait2 hstate
  have hle := hw.le
  rcases hkept.chunk (hw.placed hspace) (sendData_chunk hdata) with hnil | hend
  · exact hnil
  · omega

theorem wrote {again : Bool} (h : Rested c) (hw : Windowed c b w u n) (hkept : c.outlet.Kept u)
    (hspace : InSpace c) (hwrote : Wrote c now c' again) (hspace' : InSpace c') : Rested c' := by
  cases hwrote with
  | syn hsyn => exact .of_syn hsyn
  | nothing => exact h.of_eq rfl rfl rfl rfl rfl rfl rfl
  | @segment d x e hsyn hdata hx _ =>
      have hspacex : InSpace x := hspace'
      have hx' : x.self = c.self ∧ x.tcb.state = c.tcb.state := by
        obtain ⟨_, _, _, _, _, _, _, _, heq⟩ := emitSegment_eq c d (finDue c.tcb d.length) now
        rw [hx, heq]
        exact ⟨rfl, rfl⟩
      obtain ⟨hself, hstate⟩ := hx'
      have hrested : Rested x := by
        refine ⟨fun hs => ?_, fun hs => ?_, ?_, fun hs => ?_⟩
        · rw [hstate] at hs
          have hnil := sendData_finWait2 hw hkept hspace hs hdata
          obtain ⟨htime, he, -⟩ := emitSegment_timer (c := c) d (finDue c.tcb d.length) now
            (.inl hnil)
          exact (h.fin hs).of_eq hself (hx ▸ htime) (hx ▸ he)
        · rw [hstate] at hs
          have hwait := h.wait hs
          have hsome : c.tcb.eTimeout.isSome = true := by
            obtain ⟨y, -, hptr, -, -⟩ := hwait
            rw [hptr]
            rfl
          obtain ⟨htime, he, -⟩ := emitSegment_timer d (finDue c.tcb d.length) now (.inr hsome)
          exact hwait.of_eq hself (hx ▸ htime) (hx ▸ he)
        · rw [hstate]
          exact h.known
        · rw [hstate] at hs
          subst hx
          exact emitSegment_marked (h.mark hs) hw hspace hdata hspacex
      exact hrested.of_eq rfl rfl rfl rfl rfl rfl rfl

/-! ## All steps -/

theorem closedBoth {m : Option TcpMap} (h : Rested c)
    (hattached : c.tcb.state = .synRecvd ∨ c.tcb.state = .established)
    (hclose : ClosedBoth { c with map := m } a) (hlive : a.live = true) : Rested a := by
  cases hclose with
  | reset => cases hlive
  | fin hsyn _ htime =>
      have hest : c.tcb.state = .established := hattached.resolve_left hsyn
      have hmark := h.mark (by rw [hest]; rfl)
      refine .of_marked ?_ (hmark.of_eq rfl rfl rfl rfl)
      dsimp only
      rw [if_pos hest]
      rfl

theorem tcpSend {d : List Uchar} (h : Rested c) (hsend : tcpSend c d = some c') : Rested c' := by
  obtain ⟨r, k, l, m, e, -, rfl⟩ := tcpSend_eq hsend
  exact h.of_eq rfl rfl rfl rfl rfl rfl rfl

theorem tcpRead {len : ℤ} {d : List Uchar} (h : Rested c) (hread : tcpRead c len = some (c', d)) :
    Rested c' ∧ c'.tcb.state = c.tcb.state := by
  obtain ⟨l, m, e, la, -, rfl⟩ := tcpRead_eq hread
  exact ⟨h.of_eq rfl rfl rfl rfl rfl rfl rfl, rfl⟩

theorem timeout {e : Event} (h : Rested c) (hwf : WellFormed c) (hlive : c.live = true)
    (he : e ∈ c.ev.timeEventList) (hown : c.owns e = true) (hfunc : e.func = .tcpTimeout) :
    Rested { tcpTimeout c with ev := removeTimeEvent (tcpTimeout c).ev e.addr } := by
  have hmem : e ∈ c.timers := List.mem_filter.mpr ⟨he, hown⟩
  -- the timers of the other states do not run this callback
  have hret : retransmits c.tcb.state = true := by
    rcases h.known with hs | hs | hs | hs
    · exact absurd hs (hwf.timer_state hlive he hown)
    · rw [(h.fin hs).timers] at hmem
      cases hmem
    · obtain ⟨x, hlist, -, hx, -⟩ := h.wait hs
      rw [hlist] at hmem
      rw [List.mem_singleton.mp hmem, hx] at hfunc
      cases hfunc
    · exact hs
  obtain ⟨l, m, e', cwnd, -, -, -, heq⟩ := tcpTimeout_eq c
  rw [heq]
  exact .of_marked hret (.of_none rfl)

theorem stepped (h : Rested c) (hwf : WellFormed c) (htimer : TimerOk False c)
    (hw : Windowed c b w u n) (hkept : c.outlet.Kept u) (hspace : InSpace c)
    (hlive : c.live = true) (hstep : Stepped c i c') (hlive' : c'.live = true)
    (hspace' : InSpace c') : Rested c' := by
  cases hstep with
  | @packet s now _ htcp =>
      have hr : Rested (c.receive s) := h.of_eq rfl rfl rfl rfl rfl rfl rfl
      have htr : TimerOk False (c.receive s) := htimer.of_eq rfl rfl rfl rfl rfl rfl rfl
      exact hr.handleTcp htr hlive htcp hlive'
  | timeout he hown hfunc => exact h.timeout hwf hlive he hown hfunc
  | removed => cases hlive'
  | canRead _ _ _ hm hread _ =>
      cases hread with
      | nothing => exact h.of_eq rfl rfl rfl rfl rfl rfl rfl
      | closed _ hclose =>
          exact (h.closedBoth (hwf.attached hm) hclose hlive').of_eq rfl rfl rfl rfl rfl rfl rfl
      | sent _ _ hsend _ => exact (h.tcpSend hsend).of_eq rfl rfl rfl rfl rfl rfl rfl
  | canWrite _ _ _ hm hwrite _ =>
      cases hwrite with
      | again _ hread _ => exact (h.tcpRead hread).1.of_eq rfl rfl rfl rfl rfl rfl rfl
      | closed _ hread hclose =>
          obtain ⟨hx, hstate⟩ := h.tcpRead hread
          exact (hx.closedBoth (hstate ▸ hwf.attached hm) hclose hlive').of_eq rfl rfl rfl rfl rfl
            rfl rfl
      | wrote _ _ _ hread _ => exact (h.tcpRead hread).1.of_eq rfl rfl rfl rfl rfl rfl rfl
  | didConnect _ _ _ hm hconn _ =>
      cases hconn with
      | @accepted m =>
          obtain ⟨_, _, _, -, heq⟩ := tcpAccept_eq { c with map := m }
          rw [heq]
          exact h.of_eq rfl rfl rfl rfl rfl rfl rfl
      | closed _ hclose =>
          exact (h.closedBoth (hwf.attached hm) hclose hlive').of_eq rfl rfl rfl rfl rfl rfl rfl
  | write _ _ _ hwrote _ =>
      exact (h.wrote hw hkept hspace hwrote hspace').of_eq rfl rfl rfl rfl rfl rfl rfl
  | accept =>
      obtain ⟨_, _, _, -, heq⟩ := tcpAccept_eq c
      rw [heq]
      exact h.of_eq rfl rfl rfl rfl rfl rfl rfl
  | send _ _ _ hsend => exact h.tcpSend hsend
  | read _ hread => exact (h.tcpRead hread).1
  | @close hard hcb =>
      have hattached := hwf.cb.mp (by rw [hcb]; rfl)
      generalize hclosed : Ptrtd.tcpClose c hard = a at hlive' ⊢
      cases tcpClose_cases hclosed with
      | reset => cases hlive'
      | fin hsyn =>
          have hest : c.tcb.state = .established := hattached.resolve_left hsyn
          have hmark := h.mark (by rw [hest]; rfl)
          refine .of_marked ?_ (hmark.of_eq rfl rfl rfl rfl)
          dsimp only
          rw [if_pos hest]
          rfl
  | @others ev hev =>
      have htimers : ({ c with ev := ev } : Conn).timers = c.timers := hev.2.1
      refine ⟨fun hs => ?_, fun hs => ?_, h.known, h.mark⟩
      · exact ⟨htimers.trans (h.fin hs).timers, (h.fin hs).eTimeout⟩
      · obtain ⟨e, hlist, hptr, hfunc, hdata⟩ := h.wait hs
        exact ⟨e, htimers.trans hlist, hptr, hfunc, hdata⟩

theorem of_start {app : TcpCallback} (h : Start app c) (hlive : c.live = true) : Rested c := by
  refine of_syn ?_
  obtain ⟨isn, syn, hout | ⟨s, -, -, -, hout⟩⟩ := start_outlet h
  · exact congrArg Outlet.state hout
  · have hdead : c.live = false := congrArg Outlet.live hout
    rw [hdead] at hlive
    cases hlive

end Rested

/-! ## Pointers and lists -/

/-- The timers of a live block are those that `e_timeout` points to. -/
theorem Rested.points (h : Rested c) (htimer : TimerOk False c) (hlive : c.live = true) :
    Points Event.addr c.owns c.ev.timeEventList c.tcb.eTimeout ∧
      ∀ e ∈ c.timers, e.data = .tcb c.self := by
  have hidle : Unarmed c → Points Event.addr c.owns c.ev.timeEventList c.tcb.eTimeout ∧
      ∀ e ∈ c.timers, e.data = .tcb c.self := by
    intro hun
    rw [hun.eTimeout, hun.timers]
    exact ⟨points_none.mpr hun.timers, nofun⟩
  have hone : ∀ e, c.timers = [e] → c.tcb.eTimeout = some e.addr → e.data = .tcb c.self →
      Points Event.addr c.owns c.ev.timeEventList c.tcb.eTimeout ∧
        ∀ e ∈ c.timers, e.data = .tcb c.self := by
    intro e hlist hptr hdata
    rw [hptr, hlist]
    refine ⟨points_some.mpr ⟨e, hlist, rfl⟩, fun x hx => ?_⟩
    rw [List.mem_singleton.mp hx]
    exact hdata
  rcases h.known with hs | hs | hs | hs
  · exact hidle (htimer.syn hlive hs)
  · exact hidle (h.fin hs)
  · obtain ⟨e, hlist, hptr, -, hdata⟩ := h.wait hs
    exact hone e hlist hptr hdata
  · rcases htimer.guarded hlive hs with ⟨hun, -⟩ | ⟨e, hlist, hptr, -, hdata⟩
    · exact hidle hun
    · exact hone e hlist hptr hdata

end Ptrtd
