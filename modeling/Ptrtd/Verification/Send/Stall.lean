import Ptrtd.Verification.Send.Limits

/-! # Sending goes on when the window opens

The write event is scheduled whenever there is something to send and room for it. There is
room for what has been written, with nothing in flight, if the last segment's window was
open and has been taken over. An old segment's window is not, nor that of a segment that
acknowledges everything in `CLOSING`. -/

namespace Ptrtd

variable {a c c' : Conn} {i : Input} {s : Segment} {now : Timeval} {b w u n k : ℕ}

/-! ## ACK numbers past the SYN -/

/-- An ACK number that was sent, as a word. -/
theorem AcksSent.ack_toNat (h : AcksSent c (.packet s now)) (hspace : InSpace c)
    (hrst : s.isRst = false) (hflag : s.isAck = true) :
    c.tcb.iss < s.ack ∧ s.ack.toNat ≤ c.tcb.iss.toNat + c.trace.high := by
  obtain ⟨hpos, hle⟩ := h hrst hflag
  have hspace' : c.tcb.iss.toNat + c.trace.high < 2 ^ 32 := hspace
  have hat : SeqNum.At c.tcb.iss s.ack (s.ack - c.tcb.iss).toNat := by
    rw [SeqNum.At, BitVec.ofNat_toNat, BitVec.setWidth_eq, BitVec.add_comm, BitVec.sub_add_cancel]
  have hnat := hat.toNat_eq (by omega)
  rw [BitVec.lt_def]
  omega

theorem AcksSent.sentOnly (h : AcksSent c i) (hspace : InSpace c) : SentOnly c i := by
  cases i with
  | packet s now => exact ⟨hspace, fun hrst hflag => (h.ack_toNat hspace hrst hflag).2⟩
  | timeEvent | fdEvent | alwaysEvent | call | others => exact hspace

namespace Outlet

variable {o o' : Outlet}

/-- After the handshake the SYN is acknowledged. -/
def Synced (o : Outlet) : Prop := o.state ≠ .synRecvd → o.iss < o.una

theorem Synced.of_eq (h : o.Synced) (hiss : o'.iss = o.iss) (huna : o'.una = o.una)
    (hstate : o'.state ≠ .synRecvd → o.state ≠ .synRecvd) : o'.Synced := by
  intro hs
  rw [hiss, huna]
  exact h (hstate hs)

theorem Synced.packet {o₁ : Outlet} (h : o.Synced) (hack : s.isAck = true → o.iss < s.ack)
    (hsettled : (o.ack s).Settled s o₁) (hmoved : o₁.Moved s o') : o'.Synced := by
  intro hs
  have hpast : o.state ≠ .synRecvd ∨ s.isAck = true := by
    cases hsettled with
    | same =>
        left
        intro hsyn
        rw [hmoved.state.1 ((ack_state _ _).trans hsyn), ack_state] at hs
        exact hs hsyn
    | opened hflag => exact .inr hflag
    | deleted hflag => exact .inr hflag
    | finAcked hflag => exact .inr hflag
    | bothClosed hflag => exact .inr hflag
  have huna : o.iss < (o.ack s).una := by
    by_cases hnew : o.NewAck s
    · rw [Outlet.ack, if_pos hnew]
      exact hack hnew.1
    · rw [Outlet.ack, if_neg hnew]
      rcases hpast with hpast | hflag
      · exact h hpast
      · have hle : s.ack ≤ o.una := BitVec.not_lt.mp fun hlt => hnew ⟨hflag, hlt⟩
        exact BitVec.lt_def.mpr
          ((BitVec.lt_def.mp (hack hflag)).trans_le (BitVec.le_def.mp hle))
  obtain ⟨una, nxt, buf, hout⟩ := ack_eq o s
  rw [hout] at hsettled huna
  obtain ⟨l, st, rfl⟩ := hsettled.eq
  obtain ⟨st', rfl⟩ := hmoved.eq
  exact huna

theorem Synced.step (h : o.Synced) (hack : ∀ s now, i = .packet s now → s.isRst = false →
    s.isAck = true → o.iss < s.ack) (hstep : o.Step i o') : o'.Synced := by
  cases hstep with
  | @packet s now _ _ hrst hsettled hmoved =>
      have hr : (o.receive s).Synced := h.of_eq rfl rfl id
      exact hr.packet (hack s now rfl hrst) hsettled hmoved
  | close hest => exact h.of_eq rfl rfl fun _ => by rw [hest]; nofun
  | quiet | removed | reset | timeout | synAck | segment | write | abort => exact h.of_eq rfl rfl id

end Outlet

/-! ## When the event is scheduled -/

/-- The write event is pending whenever there is something to send and room for it. -/
def Woken (c : Conn) : Prop :=
  windowSize c.tcb > 0 → 0 < rbAvail c.tcb.outbuf c.tcb.sndNxt → c.tcb.eTcbSend.isSome = true

theorem Woken.of_due {p : Prop} (h : Wakes p c c') (hp : p) : Woken c' := fun _ _ => h.due hp

theorem Woken.wakes {p : Prop} (h : Woken c) (hw : Wakes p c c')
    (hsize : windowSize c'.tcb = windowSize c.tcb)
    (havail : rbAvail c'.tcb.outbuf c'.tcb.sndNxt = rbAvail c.tcb.outbuf c.tcb.sndNxt) :
    Woken c' := by
  intro hopen hpos
  rw [hsize] at hopen
  rw [havail] at hpos
  exact hw.isSome (h hopen hpos)

theorem windowSize_congr {t t' : Tcb} (hmax : t'.sndMax = t.sndMax) (hnxt : t'.sndNxt = t.sndNxt) :
    windowSize t' = windowSize t := by
  rw [windowSize, windowSize, hmax, hnxt]

/-- The block for ACK only ever schedules the event, as long as the connection stays. -/
theorem handleAck_wakes {f : Flow} (h : handleAck c s now = some f) (hlive : f.conn.live = true) :
    Wakes False c f.conn := by
  rcases handleAck_cases h with ⟨-, rfl⟩ | ⟨-, a, hnew, hall⟩
  · exact .refl
  · have ha : Wakes False c a := by
      rcases hnew with ⟨-, hnew⟩ | ⟨-, rfl⟩
      · exact .handleNewAck hnew
      · exact .refl
    rcases hall with ⟨-, hall⟩ | ⟨-, rfl⟩
    · refine Wakes.after ?_ ha
      cases handleAllAcked_effect hall with
      | opened _ _ hchange => exact (Wakes.of_mapChange hchange).after (.of_eq rfl rfl rfl rfl)
      | deleted => cases hlive
      | finAcked => exact .of_eq rfl rfl rfl rfl
      | bothClosed => exact .enterTimeWait a now
      | stillClosing | other => exact .refl
    · exact ha

/-- A connection that sends data after the handshake did so before. -/
theorem Outlet.Settled.retransmits {o o' : Outlet} (h : o.Settled s o') (hsyn : o.state ≠ .synRecvd)
    (hs : Ptrtd.retransmits o'.state = true) : Ptrtd.retransmits o.state = true := by
  cases h with
  | same => exact hs
  | opened _ _ hopened => exact absurd hopened hsyn
  | deleted => exact hs
  | finAcked => cases hs
  | bothClosed => cases hs

/-- The handshake ends with everything acknowledged. -/
theorem Outlet.Settled.established {o o' : Outlet} (h : o.Settled s o')
    (hsyn : o.state = .synRecvd) (hs : o'.state ≠ .synRecvd) :
    s.isAck = true ∧ o.una = o.nxt := by
  cases h with
  | same => exact absurd hsyn hs
  | opened hflag heq => exact ⟨hflag, heq⟩
  | deleted hflag heq => exact ⟨hflag, heq⟩
  | finAcked hflag heq => exact ⟨hflag, heq⟩
  | bothClosed hflag heq => exact ⟨hflag, heq⟩

theorem Outlet.Moved.retransmits {o o' : Outlet} (h : o.Moved s o')
    (hs : Ptrtd.retransmits o'.state = true) : Ptrtd.retransmits o.state = true := by
  cases h with
  | same => exact hs
  | lastAck _ hest => rw [hest]; rfl
  | closing _ hfin => rw [hfin]; rfl
  | timeWait => cases hs

theorem retransmits_cases {st : TcpState} (h : retransmits st = true) :
    st = .established ∨ st = .finWait1 ∨ st = .closing ∨ st = .lastAck := by
  revert h
  cases st <;> decide

theorem ne_synRecvd_of_retransmits {st : TcpState} (h : retransmits st = true) :
    st ≠ .synRecvd := by
  rintro rfl
  cases h

/-- What the block for ACK leaves to the rest of `handle_tcp`. -/
theorem handleAck_fields {f : Flow} (h : handleAck c s now = some f) :
    f.conn.tcb.iss = c.tcb.iss ∧ f.conn.tcb.sndUna = (c.outlet.ack s).una ∧
      f.conn.tcb.sndNxt = (c.outlet.ack s).nxt ∧ f.conn.tcb.outbuf = (c.outlet.ack s).outbuf ∧
      f.conn.trace.written = c.trace.written ∧ f.conn.trace.received = c.trace.received := by
  have hsettled := handleAck_outlet h
  obtain ⟨una, nxt, buf, hout⟩ := Outlet.ack_eq c.outlet s
  rw [hout] at hsettled ⊢
  obtain ⟨l, st, heq⟩ := hsettled.eq
  exact ⟨congrArg Outlet.iss heq, congrArg Outlet.una heq, congrArg Outlet.nxt heq,
    congrArg Outlet.outbuf heq, congrArg Outlet.written heq, congrArg Outlet.received heq⟩

/-- Room and data after the block for ACK were there before. -/
theorem Woken.handleAck {f : Flow} (h : retransmits c.tcb.state = true → Woken c)
    (hw : Windowed c b w u n) (hkept : c.outlet.Kept u) (hsync : c.outlet.Synced)
    (hspace : InSpace c) (hack : s.isAck = true → c.tcb.iss < s.ack)
    (hle : c.outlet.NewAck s → s.ack.toNat ≤ c.tcb.iss.toNat + c.trace.high)
    (hf : handleAck c s now = some f) (hlive : f.conn.live = true)
    (hstate : retransmits f.conn.tcb.state = true) : Woken f.conn := by
  intro hopen hpos
  have hplaced := hw.placed hspace
  obtain ⟨u', huna', hkept'⟩ := hkept.acked hplaced hle
  obtain ⟨n', hnn, hplaced'⟩ := hplaced.acked hle huna'
  have hsettled := handleAck_outlet hf
  obtain ⟨hiss, huna, hnxt, hbuf, -, -⟩ := handleAck_fields hf
  obtain ⟨hiss', hhigh, hwritten⟩ : (c.outlet.ack s).iss = c.tcb.iss ∧
      (c.outlet.ack s).high = c.trace.high ∧ (c.outlet.ack s).written = c.trace.written := by
    obtain ⟨una, nxt, buf, hout⟩ := Outlet.ack_eq c.outlet s
    rw [hout]
    exact ⟨rfl, rfl, rfl⟩
  have hsent := hplaced'.sent
  have hspace' := hplaced'.space
  have hun := hplaced'.le
  have hat := hplaced'.nxt
  have hend : n' ≤ c.trace.written.length := by
    rw [hnxt, hbuf] at hpos
    have havail := (hkept'.avail hat hun (.inr (by omega))).1 hpos
    rw [hwritten] at havail
    exact havail.1
  have hroom : n' < b + w := by
    have hbase := hw.base
    have hle' := hw.le
    have hwnd := hw.wnd
    have hnear := hw.near
    rw [hiss'] at hat
    rw [windowSize, (handleAck_window hf).1.1, hnxt,
      hw.top.toInt_sub hat (by push_cast; omega) (by push_cast; omega)] at hopen
    push_cast at hopen
    omega
  by_cases hsyn : c.tcb.state = .synRecvd
  · -- nothing has been written, and the SYN is acknowledged
    have hnil : c.trace.written = [] := hkept.syn hsyn
    have hlt : c.tcb.iss < f.conn.tcb.sndUna :=
      hiss ▸ hsync.packet hack hsettled .same (ne_synRecvd_of_retransmits hstate)
    rw [huna, BitVec.lt_def] at hlt
    have huna'' : (c.outlet.ack s).una.toNat = c.tcb.iss.toNat + u' := huna'
    rw [hnil, List.length_nil] at hend
    omega
  · have hold : retransmits (c.outlet.ack s).state = true :=
      hsettled.retransmits ((Outlet.ack_state c.outlet s) ▸ hsyn) hstate
    rw [Outlet.ack_state] at hold
    have hlt := BitVec.lt_def.mp (hsync hsyn)
    have huna₀ : c.outlet.una.toNat = c.outlet.iss.toNat + u := hw.una
    have havail : 0 < rbAvail c.tcb.outbuf c.tcb.sndNxt :=
      hkept.avail_pos hw.nxt (by omega) hw.le (hnn.trans hend)
    have hsize : windowSize c.tcb > 0 := by
      rw [hw.windowSize]
      omega
    exact (handleAck_wakes hf hlive).isSome (h hold hsize havail)

theorem handleOld_outlet (c : Conn) : (handleOld c).outlet = c.outlet := by
  obtain ⟨l, n, e, la, heq⟩ := handleOld_eq c
  rw [heq]
  rfl

/-- The window of a segment opens the send window only together with the event. -/
theorem Woken.handleWindow (h : Woken c) (s : Segment) : Woken (handleWindow c s) := by
  intro hopen hpos
  have hw := Wakes.handleWindow c s
  obtain ⟨l, n, e, heq⟩ := handleWindow_eq c s
  rw [heq] at hopen hpos
  by_cases hclosed : windowSize c.tcb ≤ 0
  · exact hw.due ⟨hclosed, hopen⟩
  · exact hw.isSome (h (not_le.mp hclosed) hpos)

theorem Woken.handleData (h : Woken c) (hdata : handleData c s now = some c') : Woken c' := by
  obtain ⟨⟨hmax, -⟩, -⟩ := handleData_window hdata
  obtain ⟨st, heq⟩ := (handleData_outlet hdata).eq
  have hnxt : c'.tcb.sndNxt = c.tcb.sndNxt := congrArg Outlet.nxt heq
  have hbuf : c'.tcb.outbuf = c.tcb.outbuf := congrArg Outlet.outbuf heq
  exact h.wakes (.handleData hdata) (windowSize_congr hmax hnxt) (by rw [hnxt, hbuf])

theorem Woken.handleTcp (h : retransmits c.tcb.state = true → Woken c) (hw : Windowed c b w u n)
    (hkept : c.outlet.Kept u) (hsync : c.outlet.Synced) (hspace : InSpace c)
    (hack : s.isRst = false → s.isAck = true → c.tcb.iss < s.ack)
    (hle : s.isRst = false → s.isAck = true → s.ack.toNat ≤ c.tcb.iss.toNat + c.trace.high)
    (htcp : handleTcp c s now = some c') (hlive : c'.live = true)
    (hstate : retransmits c'.tcb.state = true) : Woken c' := by
  rcases handleTcp_cases htcp with ⟨-, hreset⟩ | ⟨hrst, hdone⟩ | ⟨hrst, a, hnext, hrest⟩
  · obtain ⟨m, ev, d, -, -, rfl⟩ := handleRst_eq hreset
    cases hlive
  · have hdone' : Woken (Flow.done c').conn :=
      .handleAck h hw hkept hsync hspace (hack hrst) (fun hnew => hle hrst hnew.1) hdone
        hlive hstate
    exact hdone'
  · rcases hrest with ⟨-, rfl⟩ | ⟨-, hdata⟩
    · have hsame : (handleOld a).tcb.state = a.tcb.state :=
        congrArg Outlet.state (handleOld_outlet a)
      rw [hsame] at hstate
      exact Woken.of_due (Wakes.handleOld a) (ne_synRecvd_of_retransmits hstate)
    · have hwake := (Wakes.handleWindow a s).trans (.handleData hdata)
      have hlive' : a.live = true := hwake.live.symm.trans hlive
      have hold := (handleData_outlet hdata).retransmits hstate
      rw [handleWindow_outlet] at hold
      have ha := Woken.handleAck h hw hkept hsync hspace (hack hrst) (fun hnew => hle hrst hnew.1)
        hnext hlive' hold
      exact (ha.handleWindow s).handleData hdata

/-! ## When there is room -/

/-- The window field of the last segment received. -/
def lastWindow (c : Conn) : BitVec 16 := (c.trace.received.getLast?.map Segment.wnd).getD 0

/-- More may be written, or there are bytes that have not been acknowledged. -/
def Unfinished (c : Conn) : Prop :=
  c.tcb.state = .established ∨ 0 < rbAvail c.tcb.outbuf c.tcb.sndUna

/-- The window taken over last is open, and so is the send window when nothing is in flight. -/
def Roomy (c : Conn) : Prop :=
  c.tcb.sndWnd ≠ 0 ∧ (c.tcb.sndUna = c.tcb.sndNxt → windowSize c.tcb > 0)

/-- After its ACK number, the segment's window decides whether more is sent. -/
def Concerned (c : Conn) (s : Segment) : Prop :=
  match c.tcb.state with
  | .synRecvd => s.isAck = true ∧ (c.outlet.ack s).una = (c.outlet.ack s).nxt
  | .established => True
  | .finWait1 | .closing => 0 < rbAvail c.tcb.outbuf (c.outlet.ack s).una
  | .lastAck => 0 < rbAvail c.tcb.outbuf (c.outlet.ack s).una ∧
      ¬(s.isAck = true ∧ (c.outlet.ack s).una = (c.outlet.ack s).nxt)
  | _ => False

/-- With the window as it is there is room after the segment's ACK number. -/
def RoomyAfter (c : Conn) (s : Segment) : Prop :=
  c.tcb.sndWnd ≠ 0 ∧ ((c.outlet.ack s).una = (c.outlet.ack s).nxt →
    (c.tcb.sndMax - (c.outlet.ack s).nxt).toInt > 0)

/-- No open window is ignored while the send window is closed. -/
def Heeds (c : Conn) : Input → Prop
  | .packet s _ => s.isRst = false → s.wnd ≠ 0 → Concerned c s → TakesWindow c s ∨ RoomyAfter c s
  | _ => True

instance (c : Conn) (s : Segment) : Decidable (Concerned c s) := by
  unfold Concerned
  split <;> infer_instance

instance (c : Conn) (s : Segment) : Decidable (RoomyAfter c s) :=
  inferInstanceAs (Decidable (_ ∧ (_ → _)))

instance (c : Conn) : (i : Input) → Decidable (Heeds c i)
  | .packet _ _ => inferInstanceAs (Decidable (_ → _))
  | .timeEvent _ | .fdEvent _ _ | .alwaysEvent _ _ | .call _ | .others _ => isTrue trivial

theorem updatedCwnd_ne_zero {t : Tcb} (hmss : t.mss ≠ 0) (hwnd : t.sndWnd ≠ 0) :
    updatedCwnd t ≠ 0 := by
  rw [updatedCwnd]
  by_cases hcwnd : t.sndCwnd = 0
  · rw [if_pos hcwnd]
    split
    · exact hwnd
    · exact hmss
  · rw [if_neg hcwnd]
    split
    · exact hwnd
    · exact hcwnd

/-- A window that has just been set from `snd_una` on. -/
theorem roomy_of_set {x : Uint} (hwnd : c.tcb.sndWnd ≠ 0) (hmax : c.tcb.sndMax = c.tcb.sndUna + x)
    (hx : x ≠ 0) (hle : x.toNat ≤ 65535) : Roomy c := by
  refine ⟨hwnd, fun heq => ?_⟩
  have hsize : c.tcb.sndMax - c.tcb.sndNxt = x := by
    rw [hmax, heq, BitVec.add_comm, BitVec.add_sub_cancel]
  have hpos : x.toNat ≠ 0 := fun h => hx (BitVec.eq_of_toNat_eq h)
  rw [windowSize, hsize, BitVec.toInt_eq_toNat_of_lt (by omega)]
  omega

theorem concerned_receive : Concerned (c.receive s) s ↔ Concerned c s := by
  have hout : (c.receive s).outlet = c.outlet.receive s := rfl
  have hstate : (c.receive s).tcb = c.tcb := rfl
  rw [Concerned, Concerned, hout, hstate, (ack_receive c s).1, (ack_receive c s).2]

/-- In `LAST_ACK` the connection ends when everything is acknowledged. -/
theorem handleAck_lastAck {f : Flow} (hf : handleAck c s now = some f) (hlive : f.conn.live = true)
    (hlast : c.tcb.state = .lastAck) :
    ¬(s.isAck = true ∧ (c.outlet.ack s).una = (c.outlet.ack s).nxt) := by
  rintro ⟨hflag, heq⟩
  obtain ⟨-, huna, hnxt, -, -, -⟩ := handleAck_fields hf
  rcases handleAck_cases hf with ⟨hno, -⟩ | ⟨-, a, hnew, hall⟩
  · rw [hflag] at hno
    cases hno
  · have hstate : a.tcb.state = .lastAck := by
      rcases hnew with ⟨-, hnew⟩ | ⟨-, rfl⟩
      · exact (handleNewAck_window hnew).2.1.trans hlast
      · exact hlast
    rcases hall with ⟨-, hall⟩ | ⟨hne, rfl⟩
    · cases handleAllAcked_effect hall with
      | opened hs => rw [hstate] at hs; cases hs
      | deleted => cases hlive
      | finAcked hs => rw [hstate] at hs; cases hs
      | bothClosed hs => rw [hstate] at hs; cases hs
      | stillClosing hs => rw [hstate] at hs; cases hs
      | other _ hs => exact hs hstate
    · have hsame : a.tcb.sndUna = a.tcb.sndNxt := huna.trans (heq.trans hnxt.symm)
      exact hne hsame

/-- A connection for which `handle_tcp` ends after the block for ACK is in `CLOSING`. -/
theorem handleAck_done (hf : handleAck c s now = some (.done c')) (hlive : c'.live = true) :
    s.isAck = true ∧ (c.outlet.ack s).una = (c.outlet.ack s).nxt ∧ c.tcb.state = .closing := by
  obtain ⟨-, huna, hnxt, -, -, -⟩ := handleAck_fields hf
  rcases handleAck_cases hf with ⟨-, hnext⟩ | ⟨hflag, a, hnew, hall⟩
  · cases hnext
  · obtain ⟨hsame, hfields⟩ : a.tcb.state = c.tcb.state ∧
        (c.outlet.ack s).una = a.tcb.sndUna ∧ (c.outlet.ack s).nxt = a.tcb.sndNxt := by
      rcases hnew with ⟨hlt, hnew⟩ | ⟨hnot, rfl⟩
      · have hout : c.outlet.ack s = a.outlet := by
          rw [handleNewAck_outlet hnew]
          exact if_pos ⟨hflag, hlt⟩
        rw [hout]
        exact ⟨(handleNewAck_window hnew).2.1, rfl, rfl⟩
      · have hout : a.outlet.ack s = a.outlet := if_neg fun hs => hnot hs.2
        rw [hout]
        exact ⟨rfl, rfl, rfl⟩
    rcases hall with ⟨heq, hall⟩ | ⟨-, hnext⟩
    · refine ⟨hflag, hfields.1.trans (heq.trans hfields.2.symm), ?_⟩
      generalize hdone : Flow.done c' = f at hall
      cases handleAllAcked_effect hall with
      | deleted =>
          cases hdone
          cases hlive
      | bothClosed hs => exact hsame.symm.trans hs
      | stillClosing hs => exact hsame.symm.trans hs
      | opened | finAcked | other => cases hdone
    · cases hnext

/-- Which connections are left for the window after the block for ACK. -/
theorem concerned_of_handleAck {f : Flow} (hf : handleAck c s now = some f)
    (hlive : f.conn.live = true) (hstate : retransmits f.conn.tcb.state = true)
    (hleft : Unfinished f.conn) : Concerned c s := by
  have hsettled := handleAck_outlet hf
  have hsame : (c.outlet.ack s).state = c.tcb.state := Outlet.ack_state c.outlet s
  obtain ⟨-, huna, -, hbuf, -, -⟩ := handleAck_fields hf
  -- past `ESTABLISHED` only bytes that are not acknowledged are left
  have hbytes : c.tcb.state ≠ .synRecvd → c.tcb.state ≠ .established →
      0 < rbAvail c.tcb.outbuf (c.outlet.ack s).una := by
    intro hsyn hest
    have hout : (c.outlet.ack s).outbuf = c.tcb.outbuf := by
      rw [Outlet.ack]
      split
      · exact if_neg hest
      · rfl
    rcases hleft with hs | hpos
    · have hclosing : (c.outlet.ack s).Closing := by
        rw [Outlet.Closing, hsame]
        exact ⟨hsyn, hest⟩
      exact absurd hs (hsettled.state.2 hclosing).2
    · rwa [huna, hbuf, hout] at hpos
  rw [Concerned]
  split
  · next hsyn =>
      exact hsettled.established (hsame.trans hsyn) (ne_synRecvd_of_retransmits hstate)
  · trivial
  · next hs => exact hbytes (by rw [hs]; decide) (by rw [hs]; decide)
  · next hs => exact hbytes (by rw [hs]; decide) (by rw [hs]; decide)
  · next hs =>
      exact ⟨hbytes (by rw [hs]; decide) (by rw [hs]; decide), handleAck_lastAck hf hlive hs⟩
  · next hsyn hest hfin hclosing hlast =>
      have hold := hsettled.retransmits (by rw [hsame]; exact hsyn) hstate
      rw [hsame] at hold
      rcases retransmits_cases hold with hs | hs | hs | hs
      · exact hest hs
      · exact hfin hs
      · exact hclosing hs
      · exact hlast hs

/-- After a segment with an open window there is room. -/
theorem roomy_of_packet (hmss : c.tcb.mss ≠ 0) (hok : Heeds c (.packet s now)) (hwnd : s.wnd ≠ 0)
    (htcp : handleTcp (c.receive s) s now = some c') (hlive : c'.live = true)
    (hstate : retransmits c'.tcb.state = true) (hleft : Unfinished c') : Roomy c' := by
  obtain ⟨huna', hnxt'⟩ := ack_receive c s
  -- where the window is not taken over, what there was is enough
  have hignored : ∀ f, handleAck (c.receive s) s now = some f → s.isRst = false →
      f.conn.live = true → retransmits f.conn.tcb.state = true → Unfinished f.conn →
      ¬TakesWindow c s → Roomy f.conn := by
    intro f hf hrst hl hs hu hno
    obtain ⟨-, huna, hnxt, -, -, -⟩ := handleAck_fields hf
    obtain ⟨⟨hmax, hsnd⟩, -, -⟩ := handleAck_window hf
    have hconcerned := concerned_receive.mp (concerned_of_handleAck hf hl hs hu)
    obtain ⟨hopen, hroom⟩ := (hok hrst hwnd hconcerned).resolve_left hno
    refine ⟨hsnd ▸ hopen, fun heq => ?_⟩
    have hacked : (c.outlet.ack s).una = (c.outlet.ack s).nxt :=
      huna'.symm.trans ((huna.symm.trans heq).trans (hnxt.trans hnxt'))
    have hsize : windowSize f.conn.tcb = (c.tcb.sndMax - (c.outlet.ack s).nxt).toInt := by
      rw [windowSize, hmax, hnxt]
      exact congrArg (fun x => (c.tcb.sndMax - x).toInt) hnxt'
    rw [hsize]
    exact hroom hacked
  rcases handleTcp_cases htcp with ⟨-, hreset⟩ | ⟨hrst, hdone⟩ | ⟨hrst, a, hnext, hrest⟩
  · obtain ⟨m, ev, d, -, -, rfl⟩ := handleRst_eq hreset
    cases hlive
  · have hno : ¬TakesWindow c s := by
      rintro ⟨-, -, hearly⟩
      obtain ⟨hflag, heq, hclosing⟩ := handleAck_done hdone hlive
      exact hearly ⟨hflag, huna'.symm.trans (heq.trans hnxt'), .inl hclosing⟩
    exact hignored (.done c') hdone hrst hlive hstate hleft hno
  · obtain ⟨-, hrcv, -⟩ := handleAck_window hnext
    rcases hrest with ⟨hold, rfl⟩ | ⟨-, hdata⟩
    · have hno : ¬TakesWindow c s := fun htakes => htakes.2.1 (hrcv ▸ hold)
      obtain ⟨l, m, e, la, heq⟩ := handleOld_eq a
      rw [heq] at hlive hstate hleft ⊢
      exact hignored (.next a) hnext hrst hlive hstate hleft hno
    · obtain ⟨⟨hmax, hsnd⟩, huna⟩ := handleData_window hdata
      obtain ⟨l, m, e, heq⟩ := handleWindow_eq a s
      rw [heq] at hmax hsnd huna
      have hword : (s.wnd.setWidth 32 : Uint).toNat = s.wnd.toNat := by
        rw [BitVec.toNat_setWidth]
        exact Nat.mod_eq_of_lt (s.wnd.isLt.trans (by decide))
      have hne : (s.wnd.setWidth 32 : Uint) ≠ 0 := by
        intro hzero
        rw [hzero] at hword
        exact hwnd (BitVec.eq_of_toNat_eq hword.symm)
      have hsame : a.tcb.mss = c.tcb.mss := (Later.handleAck hnext).mss
      have hmss' : a.tcb.mss ≠ 0 := hsame ▸ hmss
      obtain ⟨x, hx⟩ : ∃ x, x = updatedCwnd { a.tcb with sndWnd := s.wnd.setWidth 32 } := ⟨_, rfl⟩
      have hne' : x ≠ 0 := hx ▸ updatedCwnd_ne_zero hmss' hne
      have hle : x.toNat ≤ s.wnd.toNat := hx ▸ (updatedCwnd_toNat_le _).trans hword.le
      have hbound : s.wnd.toNat < 2 ^ 16 := s.wnd.isLt
      refine roomy_of_set ?_ ?_ hne' (by omega)
      · rw [hsnd]
        exact hne
      · rw [hmax, huna, hx]
        rfl

/-! ## All steps -/

/-- The sender does not stall. -/
structure Unstalled (c : Conn) : Prop where
  woken : retransmits c.tcb.state = true → Woken c
  roomy : retransmits c.tcb.state = true → lastWindow c ≠ 0 → Unfinished c → Roomy c

/-- Parts of a step that concern neither the window nor the data, and may schedule the event. -/
theorem Unstalled.wakes {p : Prop} (h : Unstalled c) (hw : Wakes p c c')
    (huna : c'.tcb.sndUna = c.tcb.sndUna) (hnxt : c'.tcb.sndNxt = c.tcb.sndNxt)
    (hbuf : c'.tcb.outbuf = c.tcb.outbuf) (hmax : c'.tcb.sndMax = c.tcb.sndMax)
    (hsnd : c'.tcb.sndWnd = c.tcb.sndWnd) (hreceived : c'.trace.received = c.trace.received)
    (hstate : c'.tcb.state = c.tcb.state) : Unstalled c' := by
  have hsize := windowSize_congr hmax hnxt
  refine ⟨fun hs => ?_, fun hs hwnd hleft => ?_⟩
  · exact (h.woken (hstate ▸ hs)).wakes hw hsize (by rw [hbuf, hnxt])
  · rw [lastWindow, hreceived] at hwnd
    rw [Unfinished, hstate, hbuf, huna] at hleft
    rw [Roomy, hsnd, huna, hnxt, hsize]
    exact h.roomy (hstate ▸ hs) hwnd hleft

theorem sendAgain_of_woken {t : Tcb} (h : sendAgain t = false) (hs : retransmits t.state = true)
    (hroom : windowSize t > 0) : ¬0 < rbAvail t.outbuf t.sndNxt := by
  intro havail
  rw [sendAgain] at h
  rcases retransmits_cases hs with hst | hst | hst | hst <;> rw [hst] at h <;>
    simp only [hroom, decide_true, Bool.true_and, decide_eq_false_iff_not] at h <;> omega

theorem Unstalled.wrote {again : Bool} (h : Unstalled c) (hw : Windowed c b w u n)
    (hmss : c.tcb.mss ≠ 0) (hpend : c.tcb.eTcbSend.isSome = true)
    (hwrote : Wrote c now a again) : Unstalled a := by
  obtain ⟨n', hnn, hw'⟩ := hw.wrote hpend hwrote
  cases hwrote with
  | syn hsyn => exact ⟨fun hs => absurd hsyn (ne_synRecvd_of_retransmits hs),
      fun hs => absurd hsyn (ne_synRecvd_of_retransmits hs)⟩
  | nothing hpast hdata _ =>
      refine ⟨fun _ hroom havail => ?_, h.roomy⟩
      exact absurd rfl (sendData_ne_nil hmss hroom havail hdata)
  | @segment d x e hpast hdata hx he =>
      have hpend' : x.tcb.eTcbSend.isSome = true := by
        rw [hx]
        exact (Wakes.emitSegment c d _ now).isSome hpend
      obtain ⟨l, m, e', k, r, q, v, la, heq⟩ := emitSegment_eq c d (finDue c.tcb d.length) now
      obtain ⟨hstate, hleft, hlast, hwnd⟩ : x.tcb.state = c.tcb.state ∧
          (Unfinished x → Unfinished c) ∧ lastWindow x = lastWindow c ∧
            x.tcb.sndWnd = c.tcb.sndWnd := by
        rw [hx, heq]
        exact ⟨rfl, id, rfl, rfl⟩
      refine ⟨fun hs hroom havail => ?_, fun hs hopen hun => ⟨?_, fun hflight => ?_⟩⟩
      · cases hagain : sendAgain x.tcb with
        | true =>
            rw [hagain] at he
            rw [he]
            exact hpend'
        | false => exact absurd havail (sendAgain_of_woken hagain hs hroom)
      · rw [show Tcb.sndWnd _ = x.tcb.sndWnd from rfl, hwnd]
        exact (h.roomy (hstate ▸ hs) (hlast ▸ hopen) (hleft hun)).1
      · -- nothing has been sent either
        have hn' := hw'.una_eq_iff.mp hflight
        have hle := hw.le
        have hroom := (h.roomy (hstate ▸ hs) (hlast ▸ hopen) (hleft hun)).2
          (hw.una_eq_iff.mpr (by omega))
        rw [hw.windowSize] at hroom
        rw [hw'.windowSize]
        omega

/-- What the application writes is sent when there is room. -/
theorem Unstalled.tcpSend {d : List Uchar} (h : Unstalled c) (hest : c.tcb.state = .established)
    (hsend : tcpSend c d = some c') : Unstalled c' := by
  have hw := Wakes.tcpSend hsend
  obtain ⟨r, k, l, m, e, -, rfl⟩ := tcpSend_eq hsend
  exact ⟨fun _ hroom _ => hw.due hroom, fun hs hopen _ => h.roomy hs hopen (.inl hest)⟩

/-- Closing schedules the FIN. -/
theorem Unstalled.closedBoth {m : Option TcpMap} (h : Unstalled c)
    (hattached : c.tcb.state = .synRecvd ∨ c.tcb.state = .established)
    (hclose : ClosedBoth { c with map := m } c') (hlive : c'.live = true) : Unstalled c' := by
  cases hclose with
  | reset => cases hlive
  | fin hpast hpend =>
      have hest := hattached.resolve_left hpast
      refine ⟨fun _ _ _ => hpend, fun _ hopen _ => ?_⟩
      exact h.roomy (by rw [hest]; rfl) hopen (.inl hest)

theorem Unstalled.timeout (h : Unstalled c) (hmss : c.tcb.mss ≠ 0) (addr : ℕ)
    (hsnd : c.tcb.sndWnd.toNat ≤ 65535) :
    Unstalled { tcpTimeout c with ev := removeTimeEvent (tcpTimeout c).ev addr } := by
  have hdue := (Wakes.tcpTimeout c).due trivial
  obtain ⟨t, ht⟩ : ∃ t, t =
      { c.tcb with
        eTimeout := none, sndNxt := c.tcb.sndUna, rttMark := c.tcb.sndUna - 1, sndCwnd := 0 } :=
    ⟨_, rfl⟩
  have heq : tcpTimeout c = markForIfWrite { c with tcb := windowUpdate t } := by
    rw [tcpTimeout, ht]
  obtain ⟨l, m, e, -, hmark⟩ := markForIfWrite_eq { c with tcb := windowUpdate t }
  rw [hmark] at heq
  rw [heq] at hdue ⊢
  refine ⟨fun _ _ _ => hdue, fun hs hopen hleft => ?_⟩
  subst ht
  have hold : c.tcb.sndWnd ≠ 0 := (h.roomy hs hopen hleft).1
  have hle := updatedCwnd_toNat_le
    { c.tcb with
      eTimeout := none, sndNxt := c.tcb.sndUna, rttMark := c.tcb.sndUna - 1, sndCwnd := 0 }
  exact roomy_of_set hold rfl (updatedCwnd_ne_zero hmss hold) (hle.trans hsnd)

theorem Unstalled.packet (h : Unstalled c) (hw : Windowed c b w u n) (hkept : c.outlet.Kept u)
    (hsync : c.outlet.Synced) (hmss : c.tcb.mss ≠ 0) (hspace : InSpace c)
    (hack : AcksSent c (.packet s now)) (hheeds : Heeds c (.packet s now))
    (htcp : handleTcp (c.receive s) s now = some c') (hlive : c'.live = true) : Unstalled c' := by
  refine ⟨fun hs => ?_, fun hs hopen hleft => ?_⟩
  · have hw' : Windowed (c.receive s) b w u n := hw.of_eq rfl rfl rfl rfl rfl rfl id le_rfl
    have hkept' : (c.receive s).outlet.Kept u := hkept.of_eq rfl rfl rfl rfl rfl
    have hsync' : (c.receive s).outlet.Synced := hsync.of_eq rfl rfl id
    have hspace' : InSpace (c.receive s) := hspace
    have hwoken : retransmits (c.receive s).tcb.state = true → Woken (c.receive s) := h.woken
    have hword := fun hrst hflag => hack.ack_toNat hspace hrst hflag
    exact Woken.handleTcp hwoken hw' hkept' hsync' hspace' (fun hrst hflag => (hword hrst hflag).1)
      (fun hrst hflag => (hword hrst hflag).2) htcp hlive hs
  · have hlast : c'.trace.received = c.trace.received ++ [s] := by
      rcases handleTcp_arrived htcp with ⟨-, heq⟩ | ⟨-, o, hsettled, hmoved⟩
      · exact congrArg Outlet.received heq
      · obtain ⟨l, st, una, nxt, buf, heq⟩ := Outlet.packet_eq hsettled hmoved
        exact congrArg Outlet.received heq
    have hwnd : s.wnd ≠ 0 := by
      rw [lastWindow, hlast, List.getLast?_concat] at hopen
      exact hopen
    exact roomy_of_packet hmss hheeds hwnd htcp hlive hs hleft

theorem Unstalled.tcpRead {len : ℤ} {d : List Uchar} (h : Unstalled c)
    (hread : tcpRead c len = some (c', d)) : Unstalled c' := by
  have hw := Wakes.tcpRead hread
  obtain ⟨l, m, e, la, -, rfl⟩ := tcpRead_eq hread
  exact h.wakes hw rfl rfl rfl rfl rfl rfl rfl

theorem Unstalled.stepped (h : Unstalled c) (hwf : WellFormed c) (hqueue : Queued c)
    (hw : Windowed c b w u n) (hkept : c.outlet.Kept u) (hsync : c.outlet.Synced)
    (hmss : c.tcb.mss ≠ 0) (hspace : InSpace c) (hack : AcksSent c i) (hheeds : Heeds c i)
    (hlive : c.live = true) (hlive' : c'.live = true) (hstep : Stepped c i c') :
    Unstalled c' := by
  cases hstep with
  | packet htcp => exact h.packet hw hkept hsync hmss hspace hack hheeds htcp hlive'
  | timeout => exact h.timeout hmss _ hw.sndWnd
  | removed => cases hlive'
  | canRead he hown hfunc hm hread _ =>
      cases hread with
      | nothing => exact ⟨h.woken, h.roomy⟩
      | closed _ hclose =>
          have ha := h.closedBoth (hwf.attached hm) hclose hlive'
          exact ⟨ha.woken, ha.roomy⟩
      | sent _ _ hsend _ =>
          have hpast := hwf.reader_state hlive he hown (.inl hfunc)
          have ha := h.tcpSend ((hwf.attached hm).resolve_left hpast) hsend
          exact ⟨ha.woken, ha.roomy⟩
  | canWrite _ _ _ hm hwrite _ =>
      cases hwrite with
      | again _ hread _ =>
          have ha := h.tcpRead hread
          exact ⟨ha.woken, ha.roomy⟩
      | @closed a _ d m _ hread hclose =>
          have hstate : a.tcb.state = c.tcb.state := congrArg Outlet.state (tcpRead_outlet hread)
          have ha := (h.tcpRead hread).closedBoth (hstate ▸ hwf.attached hm) hclose hlive'
          exact ⟨ha.woken, ha.roomy⟩
      | wrote _ _ _ hread _ =>
          have ha := h.tcpRead hread
          exact ⟨ha.woken, ha.roomy⟩
  | didConnect _ _ _ hm hconn _ =>
      cases hconn with
      | @accepted m =>
          have ha : Unstalled (tcpAccept { c with map := m }) := by
            have hwake : Wakes True c (tcpAccept { c with map := m }) := .of_mark rfl rfl rfl rfl
            obtain ⟨l, k, e, -, heq⟩ := tcpAccept_eq { c with map := m }
            rw [heq] at hwake ⊢
            exact h.wakes hwake rfl rfl rfl rfl rfl rfl rfl
          exact ⟨ha.woken, ha.roomy⟩
      | closed _ hclose =>
          have ha := h.closedBoth (hwf.attached hm) hclose hlive'
          exact ⟨ha.woken, ha.roomy⟩
  | write he hown _ hwrote _ =>
      have hpend : c.tcb.eTcbSend.isSome = true := by
        rw [hqueue.pending hlive he hown]
        rfl
      have ha := h.wrote hw hmss hpend hwrote
      exact ⟨ha.woken, ha.roomy⟩
  | accept =>
      have hwake := Wakes.tcpAccept c
      obtain ⟨l, k, e, -, heq⟩ := tcpAccept_eq c
      rw [heq] at hwake ⊢
      exact h.wakes hwake rfl rfl rfl rfl rfl rfl rfl
  | send _ hest _ hsend => exact h.tcpSend hest hsend
  | read _ hread => exact h.tcpRead hread
  | @close hard hcb =>
      generalize hclosed : Ptrtd.tcpClose c hard = a at hlive' ⊢
      cases tcpClose_cases hclosed with
      | reset => cases hlive'
      | fin hsyn hpend =>
          have hest : c.tcb.state = .established :=
            (hwf.cb.mp (by rw [hcb]; rfl)).resolve_left hsyn
          refine ⟨fun _ _ _ => hpend, fun _ hopen _ => ?_⟩
          exact h.roomy (by rw [hest]; rfl) hopen (.inl hest)
  | others => exact ⟨h.woken, h.roomy⟩

/-! ## Runs -/

/-- The peer acknowledges what was sent, sequence numbers do not wrap, and no open window is
ignored while the send window is closed. -/
def Heeded (c : Conn) (i : Input) : Prop := AcksSent c i ∧ InSpace c ∧ Heeds c i

instance (c : Conn) (i : Input) : Decidable (Heeded c i) :=
  inferInstanceAs (Decidable (_ ∧ _ ∧ _))

/-- A connection that is alive does not stall, and its SYN is acknowledged in time. -/
structure Flowing (c : Conn) : Prop where
  mss : c.tcb.mss ≠ 0
  synced : c.outlet.Synced
  unstalled : Unstalled c

theorem Flowing.stepped (h : Flowing c) (hwf : WellFormed c) (hqueue : Queued c)
    (htimer : TimerOk False c) (hw : Windowed c b w u n) (hkept : c.outlet.Kept u)
    (hok : Heeded c i) (hlive : c.live = true) (hlive' : c'.live = true)
    (hstep : Stepped c i c') : Flowing c' := by
  obtain ⟨hack, hspace, hheeds⟩ := hok
  refine ⟨?_, ?_, ?_⟩
  · rw [(Later.stepped hstep).mss]
    exact h.mss
  · refine h.synced.step ?_ (step_outlet hwf htimer hlive hstep)
    rintro s now rfl hrst hflag
    exact (hack.ack_toNat hspace hrst hflag).1
  · exact h.unstalled.stepped hwf hqueue hw hkept h.synced h.mss hspace hack hheeds
      hlive hlive' hstep

theorem Flowing.of_start {app : TcpCallback} (h : Start app c) (hlive : c.live = true) :
    Flowing c := by
  obtain ⟨hmss, hstate⟩ : c.tcb.mss = 1220 ∧ c.tcb.state = .synRecvd := by
    obtain ⟨self, isn, ev, syn, -, hopen⟩ := start_cases h
    cases hopen with
    | other => exact ⟨rfl, rfl⟩
    | @accepted m =>
        obtain ⟨l, k, e, -, heq⟩ :=
          tcpAccept_eq { Conn.fresh self app isn ev syn with map := some m }
        rw [heq]
        exact ⟨rfl, rfl⟩
    | connecting => exact ⟨rfl, rfl⟩
    | failed _ hclose =>
        cases hclose with
        | reset => cases hlive
        | fin hpast => exact absurd rfl hpast
  refine ⟨by rw [hmss]; decide, fun hs => absurd hstate hs, fun hs => ?_, fun hs => ?_⟩
  · exact absurd hstate (ne_synRecvd_of_retransmits hs)
  · exact absurd hstate (ne_synRecvd_of_retransmits hs)

theorem Flowing.of_reached (h : Reached Heeded c) :
    Queued c ∧ Located c ∧ (c.live = true → Flowing c) := by
  have hinv : Queued c ∧ AcceptOnce c ∧ TimerOk False c ∧ Located c ∧
      (c.live = true → Flowing c) := by
    apply h.run_invariant
    · exact fun _ _ hs => ⟨.of_start hs, .of_start hs, .of_start hs, .of_start hs, .of_start hs⟩
    · intro c i c' hwf ⟨hqueue, honce, htimer, hlocated, hflow⟩ hok hstep
      obtain ⟨hlive, hstepped⟩ := step_cases hstep
      refine ⟨hqueue.step hstep, honce.step hwf hstep,
        htimer.stepped hwf hlive False.elim hstepped,
        hlocated.stepped hwf hqueue honce htimer (hok.1.sentOnly hok.2.1) hlive hstepped,
        fun hlive' => ?_⟩
      obtain ⟨b, w, u, n, hw, hkept⟩ := hlocated hlive
      exact (hflow hlive).stepped hwf hqueue htimer hw hkept hok hlive hlive' hstepped
  exact ⟨hinv.1, hinv.2.2.2.1, hinv.2.2.2.2⟩

/-- In every run in which no open window is ignored while the send window is closed, a
connection with bytes to send, nothing in flight and an open window from the last segment has
its write event scheduled. -/
theorem scheduled_of_heeded (h : Reached Heeded c) (hlive : c.live = true) (hspace : InSpace c)
    (hstate : c.tcb.state = .established ∨ c.tcb.state = .finWait1 ∨ c.tcb.state = .closing ∨
      c.tcb.state = .lastAck)
    (hdata : (c.tcb.sndNxt - c.tcb.iss).toNat ≤ c.trace.written.length)
    (hflight : c.tcb.sndUna = c.tcb.sndNxt) (hwnd : lastWindow c ≠ 0) :
    ∃ e ∈ c.ev.alwaysEventList, e = writeEvent e.addr c.self ∧ c.tcb.eTcbSend = some e.addr := by
  obtain ⟨hqueue, hlocated, hflow⟩ := Flowing.of_reached h
  obtain ⟨b, w, u, n, hw, hkept⟩ := hlocated hlive
  obtain ⟨-, hsync, hunstalled⟩ := hflow hlive
  have hs : retransmits c.tcb.state = true := by
    rcases hstate with hs | hs | hs | hs <;> rw [hs] <;> rfl
  have hpos := BitVec.lt_def.mp (hsync (ne_synRecvd_of_retransmits hs))
  have huna : c.outlet.una.toNat = c.outlet.iss.toNat + u := hw.una
  have hn := hw.una_eq_iff.mp hflight
  have hsize := hw.sent
  have hspace' : c.tcb.iss.toNat + c.trace.high < 2 ^ 32 := hspace
  have hnxt : (c.tcb.sndNxt - c.tcb.iss).toNat = n := by
    rw [hw.nxt, BitVec.add_comm, BitVec.add_sub_cancel, BitVec.toNat_ofNat]
    exact Nat.mod_eq_of_lt (by omega)
  have havail : 0 < rbAvail c.tcb.outbuf c.tcb.sndNxt :=
    hkept.avail_pos hw.nxt (by omega) hw.le (hnxt ▸ hdata)
  have hroom := (hunstalled.roomy hs hwnd (.inr (hflight ▸ havail))).2 hflight
  obtain ⟨addr, haddr⟩ := Option.isSome_iff_exists.mp (hunstalled.woken hs hroom havail)
  have hpoints := hqueue.points
  rw [if_pos hlive, haddr] at hpoints
  obtain ⟨e, hmem, hown, rfl⟩ := hpoints.exists_mem
  exact ⟨e, hmem, hqueue.event e hmem hown, haddr⟩

/-- Two bytes written by the application and a window of one byte. -/
theorem scheduled_of_heeded_bytes : ∃ c, Reached Heeded c ∧ c.tcb.state = .established ∧
    c.trace.written = [7, 8] ∧
      ∃ e ∈ c.ev.alwaysEventList, e = writeEvent e.addr c.self ∧ c.tcb.eTcbSend = some e.addr := by
  have hexec : (execFrom Heeded .tcpMapCb 0 (clientSyn 1) (.connected 5)
      [.alwaysEvent 0 ⟨0, 0⟩, client 1001 0x10001 0x10 1 [], .fdEvent 1 (.read (.data [7, 8]))]).any
      (fun c => c.live = true ∧ InSpace c ∧ c.tcb.state = .established ∧
        c.trace.written = [7, 8] ∧ (c.tcb.sndNxt - c.tcb.iss).toNat ≤ c.trace.written.length ∧
        c.tcb.sndUna = c.tcb.sndNxt ∧ lastWindow c ≠ 0) = true := by
    decide +kernel
  obtain ⟨c, hreach, hc⟩ := reached_of_exec hexec
  obtain ⟨hlive, hspace, hest, hwritten, hdata, hflight, hwnd⟩ := of_decide_eq_true hc
  exact ⟨c, hreach, hest, hwritten,
    scheduled_of_heeded hreach hlive hspace (.inl hest) hdata hflight hwnd⟩

/-- Bytes that were never sent, nothing in flight and an open window from the last segment, but
neither a write event nor a timer. -/
def Stalled (c : Conn) : Prop :=
  c.live = true ∧ InSpace c ∧ (c.tcb.sndNxt - c.tcb.iss).toNat ≤ c.trace.written.length ∧
    c.trace.high ≤ (c.tcb.sndNxt - c.tcb.iss).toNat ∧ c.tcb.sndUna = c.tcb.sndNxt ∧
    lastWindow c ≠ 0 ∧ c.tcb.eTcbSend = none ∧ c.tcb.eTimeout = none

instance (c : Conn) : Decidable (Stalled c) :=
  inferInstanceAs (Decidable (_ ∧ _ ∧ _ ∧ _ ∧ _ ∧ _ ∧ _ ∧ _))

/-- In `CLOSING` the segment that acknowledges the first byte opens the window, but
`handle_tcp` returns before it looks at the window; in `ESTABLISHED` the window is reopened by
a segment whose sequence number is old. -/
theorem stalls_after_ignored_window :
    (∃ c, Reached (fun c i => AcksSent c i ∧ InSpace c) c ∧ Stalled c ∧ c.tcb.state = .closing) ∧
    ∃ c, Reached (fun c i => AcksSent c i ∧ InSpace c) c ∧ Stalled c ∧
      c.tcb.state = .established := by
  constructor
  · have hexec : (execFrom (fun c i => AcksSent c i ∧ InSpace c) .tcpMapCb 0 (clientSyn 1)
        (.connected 5)
        [.alwaysEvent 0 ⟨0, 0⟩, client 1001 0x10001 0x10 1 [], .fdEvent 1 (.read (.data [7, 8])),
          .alwaysEvent 2 ⟨0, 0⟩, .fdEvent 1 (.read .eof), client 1001 0x10001 0x11 0 [],
          .alwaysEvent 4 ⟨0, 0⟩, client 1002 0x10002 0x10 1 []]).any
        (fun c => Stalled c ∧ c.tcb.state = .closing) = true := by
      decide +kernel
    obtain ⟨c, hreach, hc⟩ := reached_of_exec hexec
    exact ⟨c, hreach, of_decide_eq_true hc⟩
  · have hexec : (execFrom (fun c i => AcksSent c i ∧ InSpace c) .tcpMapCb 0 (clientSyn 1)
        (.connected 5)
        [.alwaysEvent 0 ⟨0, 0⟩, client 1001 0x10001 0x10 1 [], .fdEvent 1 (.read (.data [7, 8])),
          .alwaysEvent 2 ⟨0, 0⟩, client 1001 0x10002 0x10 0 [], client 1000 0x10002 0x10 1 [],
          .alwaysEvent 4 ⟨0, 0⟩]).any
        (fun c => Stalled c ∧ c.tcb.state = .established) = true := by
      decide +kernel
    obtain ⟨c, hreach, hc⟩ := reached_of_exec hexec
    exact ⟨c, hreach, of_decide_eq_true hc⟩

end Ptrtd
