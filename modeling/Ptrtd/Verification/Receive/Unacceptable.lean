import Ptrtd.Verification.Relay.Ownership
import Ptrtd.Verification.Send.Window

/-! # Segments outside the receive window

`handle_tcp` compares the sequence number with `rcv_nxt` only, after RST and ACK have been
handled. What a segment outside the window does to the connection, and which segments do
nothing to it. -/

namespace Ptrtd

variable {a c c' : Conn} {s : Segment} {now : Timeval}

/-- The segment and every sequence number it occupies lie outside the receive window, and none
of them wraps. -/
structure Outside (c : Conn) (s : Segment) : Prop where
  space : s.seq.toNat + s.span < 2 ^ 32
  number : ¬(c.tcb.rcvNxt.toNat ≤ s.seq.toNat ∧
    s.seq.toNat < c.tcb.rcvNxt.toNat + c.tcb.rcvWnd.toNat)
  range : ∀ k < s.span, ¬(c.tcb.rcvNxt.toNat ≤ s.seq.toNat + k ∧
    s.seq.toNat + k < c.tcb.rcvNxt.toNat + c.tcb.rcvWnd.toNat)

instance (c : Conn) (s : Segment) : Decidable (Outside c s) :=
  decidable_of_iff (_ ∧ _ ∧ _)
    ⟨fun h => ⟨h.1, h.2.1, h.2.2⟩, fun h => ⟨h.space, h.number, h.range⟩⟩

/-- The segment acknowledges something new that has been sent. -/
def ValidAck (c : Conn) (s : Segment) : Prop :=
  s.isAck = true ∧ c.tcb.sndUna < s.ack ∧ s.ack.toNat ≤ c.tcb.iss.toNat + c.trace.high

instance (c : Conn) (s : Segment) : Decidable (ValidAck c s) :=
  inferInstanceAs (Decidable (_ ∧ _ ∧ _))

/-- The segment has no effect but that of its ACK number: nothing is received, sent or closed,
and the send window stays. -/
structure Unaffected (c : Conn) (s : Segment) (c' : Conn) : Prop where
  live : c'.live = true
  state : c'.tcb.state = c.tcb.state
  cb : c'.tcb.cb = c.tcb.cb
  inbuf : c'.tcb.inbuf = c.tcb.inbuf
  readSeq : c'.tcb.readSeq = c.tcb.readSeq
  rcvNxt : c'.tcb.rcvNxt = c.tcb.rcvNxt
  rcvWnd : c'.tcb.rcvWnd = c.tcb.rcvWnd
  sndWnd : c'.tcb.sndWnd = c.tcb.sndWnd
  trace : c'.trace = (c.receive s).trace
  sndUna : c'.tcb.sndUna = c.tcb.sndUna ∨ ValidAck c s ∧ c'.tcb.sndUna = s.ack
  sndNxt : c'.tcb.sndNxt = c.tcb.sndNxt ∨ ValidAck c s ∧ c'.tcb.sndNxt = s.ack
  outbuf : c'.tcb.outbuf = c.tcb.outbuf ∨
    ValidAck c s ∧ c'.tcb.outbuf = rbAdvance c.tcb.outbuf s.ack

/-- Our FIN is acknowledged, by this segment or before it. -/
def AcksFin (c : Conn) (s : Segment) : Prop :=
  c.tcb.state = .finWait1 ∧ s.isAck = true ∧
    if c.tcb.sndUna < s.ack then c.tcb.sndNxt ≤ s.ack ∧ rbAvail c.tcb.outbuf s.ack = -1
    else c.tcb.sndUna = c.tcb.sndNxt ∧ rbAvail c.tcb.outbuf c.tcb.sndNxt = -1

instance (c : Conn) (s : Segment) : Decidable (AcksFin c s) :=
  inferInstanceAs (Decidable (_ ∧ _ ∧ _))

/-- The segment is no reset, acknowledges nothing that was not sent nor our FIN, and either
starts before `rcv_nxt` or carries nothing but the window that is known. -/
structure Ignorable (c : Conn) (s : Segment) : Prop where
  rst : s.isRst = false
  ack : s.isAck = true → c.tcb.sndUna < s.ack → s.ack.toNat ≤ c.tcb.iss.toNat + c.trace.high
  fin : ¬AcksFin c s
  carries : s.seq < c.tcb.rcvNxt ∨
    s.wnd.setWidth 32 = c.tcb.sndWnd ∧ s.data = [] ∧ s.isFin = false

/-! ## The block for ACK -/

/-- What the block for ACK does to `snd_una`, `snd_nxt` and `outbuf`. -/
structure Advanced (c : Conn) (s : Segment) (a : Conn) : Prop where
  live : a.live = c.live
  cb : a.tcb.cb = c.tcb.cb
  inbuf : a.tcb.inbuf = c.tcb.inbuf
  readSeq : a.tcb.readSeq = c.tcb.readSeq
  rcvNxt : a.tcb.rcvNxt = c.tcb.rcvNxt
  rcvWnd : a.tcb.rcvWnd = c.tcb.rcvWnd
  sndWnd : a.tcb.sndWnd = c.tcb.sndWnd
  trace : a.trace = c.trace
  new : s.isAck = true ∧ c.tcb.sndUna < s.ack → a.tcb.sndUna = s.ack ∧
    a.tcb.sndNxt = (if s.ack > c.tcb.sndNxt then s.ack else c.tcb.sndNxt) ∧
      a.tcb.outbuf = (if c.tcb.state = .established then rbAdvance c.tcb.outbuf s.ack
        else c.tcb.outbuf)
  old : ¬(s.isAck = true ∧ c.tcb.sndUna < s.ack) → a.tcb.sndUna = c.tcb.sndUna ∧
    a.tcb.sndNxt = c.tcb.sndNxt ∧ a.tcb.outbuf = c.tcb.outbuf

theorem Advanced.of_cases (hack : s.isAck = true)
    (hnew : c.tcb.sndUna < s.ack ∧ handleNewAck c s.ack now = some a ∨
      ¬c.tcb.sndUna < s.ack ∧ a = c) : Advanced c s a ∧ a.tcb.state = c.tcb.state := by
  rcases hnew with ⟨hlt, hnew⟩ | ⟨hnot, rfl⟩
  · obtain ⟨_, _, _, _, _, _, _, _, -, rfl, -, rfl⟩ := handleNewAck_eq hnew
    exact ⟨⟨rfl, rfl, rfl, rfl, rfl, rfl, rfl, rfl, fun _ => ⟨rfl, rfl, rfl⟩,
      fun h => absurd ⟨hack, hlt⟩ h⟩, rfl⟩
  · exact ⟨⟨rfl, rfl, rfl, rfl, rfl, rfl, rfl, rfl, fun h => absurd h.2 hnot,
      fun _ => ⟨rfl, rfl, rfl⟩⟩, rfl⟩

/-- The segment acknowledges our FIN if nothing is in flight afterwards and the FIN has been
sent. -/
theorem Advanced.acksFin_iff (h : Advanced c s a) (hack : s.isAck = true)
    (hstate : c.tcb.state = .finWait1) : AcksFin c s ↔
      a.tcb.sndUna = a.tcb.sndNxt ∧ rbAvail a.tcb.outbuf a.tcb.sndNxt = -1 := by
  rw [AcksFin]
  by_cases hlt : c.tcb.sndUna < s.ack
  · obtain ⟨huna, hnxt, hbuf⟩ := h.new ⟨hack, hlt⟩
    rw [if_neg (by rw [hstate]; nofun)] at hbuf
    rw [if_pos hlt, huna, hnxt, hbuf]
    split
    · next hgt =>
        have hle : c.tcb.sndNxt ≤ s.ack := BitVec.le_of_lt hgt
        exact ⟨fun hfin => ⟨rfl, hfin.2.2.2⟩, fun hfin => ⟨hstate, hack, hle, hfin.2⟩⟩
    · next hnot =>
        rw [gt_iff_lt, BitVec.not_lt] at hnot
        refine ⟨fun hfin => ?_, fun hfin => ⟨hstate, hack, BitVec.le_of_eq hfin.1.symm, ?_⟩⟩
        · have hsame : s.ack = c.tcb.sndNxt := BitVec.le_antisymm hnot hfin.2.2.1
          exact ⟨hsame, hsame ▸ hfin.2.2.2⟩
        · rw [hfin.1]
          exact hfin.2
  · obtain ⟨huna, hnxt, hbuf⟩ := h.old fun hnew => hlt hnew.2
    rw [if_neg hlt, huna, hnxt, hbuf]
    exact ⟨fun hfin => hfin.2.2, fun hfin => ⟨hstate, hack, hfin⟩⟩

/-- The states of an open connection that receives. -/
def receives : TcpState → Bool
  | .established | .finWait1 | .finWait2 => true
  | _ => false

theorem handleAllAcked_receives {f : Flow} (hstate : receives c.tcb.state = true)
    (hf : handleAllAcked c now = some f) :
    ∃ st, f = .next { c with tcb := { c.tcb with state := st } } ∧
      st = if c.tcb.state = .finWait1 ∧ rbAvail c.tcb.outbuf c.tcb.sndNxt = -1 then .finWait2
        else c.tcb.state := by
  rw [handleAllAcked] at hf
  split at hf
  · next hs => rw [hs] at hstate; cases hstate
  · next hs => rw [hs] at hstate; cases hstate
  · next hs =>
      split at hf
      · next havail =>
          cases hf
          exact ⟨.finWait2, rfl, (if_pos ⟨hs, havail⟩).symm⟩
      · next havail =>
          cases hf
          exact ⟨c.tcb.state, rfl, (if_neg fun h => havail h.2).symm⟩
  · next hs => rw [hs] at hstate; cases hstate
  · next _ _ hne _ =>
      cases hf
      exact ⟨c.tcb.state, rfl, (if_neg fun h => hne h.1).symm⟩

theorem handleAck_advanced {f : Flow} (hstate : receives c.tcb.state = true)
    (hf : handleAck c s now = some f) : ∃ a, f = .next a ∧ Advanced c s a ∧
      a.tcb.state = if AcksFin c s then .finWait2 else c.tcb.state := by
  rcases handleAck_cases hf with ⟨hno, rfl⟩ | ⟨hack, x, hnew, hall⟩
  · have hno' : ¬s.isAck = true := by simp [hno]
    refine ⟨c, rfl, ⟨rfl, rfl, rfl, rfl, rfl, rfl, rfl, rfl, fun h => absurd h.1 hno',
      fun _ => ⟨rfl, rfl, rfl⟩⟩, (if_neg fun h => hno' h.2.1).symm⟩
  · obtain ⟨hx, hsame⟩ := Advanced.of_cases hack hnew
    have hfin : AcksFin c s ↔ c.tcb.state = .finWait1 ∧ x.tcb.sndUna = x.tcb.sndNxt ∧
        rbAvail x.tcb.outbuf x.tcb.sndNxt = -1 :=
      ⟨fun h => ⟨h.1, (hx.acksFin_iff hack h.1).mp h⟩,
        fun h => (hx.acksFin_iff hack h.1).mpr h.2⟩
    rcases hall with ⟨heq, hall⟩ | ⟨hne, rfl⟩
    · obtain ⟨st, rfl, hst⟩ := handleAllAcked_receives (by rw [hsame]; exact hstate) hall
      refine ⟨_, rfl, ⟨hx.live, hx.cb, hx.inbuf, hx.readSeq, hx.rcvNxt, hx.rcvWnd, hx.sndWnd,
        hx.trace, hx.new, hx.old⟩, hst.trans ?_⟩
      simp only [hfin, heq, hsame, true_and]
    · refine ⟨x, rfl, hx, ?_⟩
      rw [if_neg fun h => hne (hfin.mp h).2.1]
      exact hsame

/-! ## The rest of `handle_tcp` -/

theorem Advanced.unaffected_una (h : Advanced c s a)
    (hok : s.isAck = true → c.tcb.sndUna < s.ack →
      s.ack.toNat ≤ c.tcb.iss.toNat + c.trace.high) :
    (a.tcb.sndUna = c.tcb.sndUna ∨ ValidAck c s ∧ a.tcb.sndUna = s.ack) ∧
      (a.tcb.sndNxt = c.tcb.sndNxt ∨ ValidAck c s ∧ a.tcb.sndNxt = s.ack) ∧
      (a.tcb.outbuf = c.tcb.outbuf ∨
        ValidAck c s ∧ a.tcb.outbuf = rbAdvance c.tcb.outbuf s.ack) := by
  by_cases hnew : s.isAck = true ∧ c.tcb.sndUna < s.ack
  · have hvalid : ValidAck c s := ⟨hnew.1, hnew.2, hok hnew.1 hnew.2⟩
    obtain ⟨huna, hnxt, hbuf⟩ := h.new hnew
    refine ⟨.inr ⟨hvalid, huna⟩, ?_, ?_⟩
    · split at hnxt
      · exact .inr ⟨hvalid, hnxt⟩
      · exact .inl hnxt
    · split at hbuf
      · exact .inr ⟨hvalid, hbuf⟩
      · exact .inl hbuf
  · obtain ⟨huna, hnxt, hbuf⟩ := h.old hnew
    exact ⟨.inl huna, .inl hnxt, .inl hbuf⟩

/-- What the segment carries is received, whatever its sequence number. -/
structure Carried (c : Conn) (s : Segment) (c' : Conn) : Prop where
  sndWnd : c'.tcb.sndWnd = c.tcb.sndWnd
  sndUna : c'.tcb.sndUna = c.tcb.sndUna
  rcvNxt : c'.tcb.rcvNxt =
    c.tcb.rcvNxt + BitVec.ofNat 32 s.data.length + (if s.isFin then 1 else 0)
  state : c'.tcb.state = .finWait1 → c.tcb.state = .finWait1

theorem handleData_carried (hstate : receives c.tcb.state = true)
    (hdata : handleData c s now = some c') : Carried c s c' := by
  cases handleData_effect hdata with
  | ignored h₂ h₁ hest =>
      exfalso
      cases hs : c.tcb.state <;> simp_all [receives]
  | data _ hrecv _ =>
      obtain ⟨-, _, _, _, _, _, _, -, -, -, rfl⟩ := tcpRecvData_eq hrecv
      exact ⟨rfl, rfl, rfl, id⟩
  | finWait2 _ hrecv =>
      obtain ⟨-, _, _, _, _, _, _, -, -, -, rfl⟩ := tcpRecvData_eq hrecv
      exact ⟨rfl, rfl, rfl, nofun⟩
  | finWait1 _ hrecv =>
      obtain ⟨-, _, _, _, _, _, _, -, -, -, rfl⟩ := tcpRecvData_eq hrecv
      exact ⟨rfl, rfl, rfl, nofun⟩
  | closeWait _ _ hrecv hclose =>
      obtain ⟨-, _, _, _, _, _, _, -, -, -, rfl⟩ := tcpRecvData_eq hrecv
      obtain ⟨_, _, _, _, -, -, -, -, rfl⟩ := tcpRemoteClose_eq rfl hclose
      exact ⟨rfl, rfl, rfl, nofun⟩

/-- A segment without data or FIN ends there. -/
theorem handleData_empty (hdata : s.data = []) (hfin : s.isFin = false)
    (hrun : handleData c s now = some c') : c' = c := by
  have hrecv : tcpRecvData c s = some (c, false) := by
    rw [tcpRecvData, recvPayload, if_neg (by simp [hdata]), Option.map_some, recvFin, hfin]
    rfl
  cases handleData_effect hrun with
  | ignored => rfl
  | data _ hx _ => exact (Prod.mk.inj (Option.some.inj (hx.symm.trans hrecv))).1
  | finWait2 _ hx | finWait1 _ hx => rw [hrecv] at hx; cases hx
  | closeWait _ hf => rw [hfin] at hf; cases hf

/-! ## Both directions -/

/-- An ignorable segment leaves the connection as it is. -/
theorem Ignorable.unaffected (h : Ignorable c s) (hlive : c.live = true)
    (hstate : receives c.tcb.state = true) (htcp : handleTcp (c.receive s) s now = some c') :
    Unaffected c s c' := by
  rcases handleTcp_cases htcp with ⟨hrst, -⟩ | ⟨-, hdone⟩ | ⟨-, x, hnext, hrest⟩
  · rw [h.rst] at hrst
    cases hrst
  · obtain ⟨x, hx, -⟩ := handleAck_advanced (c := c.receive s) hstate hdone
    cases hx
  · obtain ⟨x, hx, hadv, hst⟩ := handleAck_advanced (c := c.receive s) hstate hnext
    cases hx
    have hfin : ¬AcksFin (c.receive s) s := h.fin
    rw [if_neg hfin] at hst
    obtain ⟨huna, hnxt, hbuf⟩ := hadv.unaffected_una h.ack
    rcases hrest with ⟨-, rfl⟩ | ⟨hseq, hdata⟩
    · obtain ⟨l, n, e, la, heq⟩ := handleOld_eq x
      rw [heq]
      exact ⟨hadv.live.trans hlive, hst, hadv.cb, hadv.inbuf, hadv.readSeq, hadv.rcvNxt,
        hadv.rcvWnd, hadv.sndWnd, hadv.trace, huna, hnxt, hbuf⟩
    · rcases h.carries with hold | ⟨hwnd, hnil, hnofin⟩
      · rw [hadv.rcvNxt] at hseq
        exact absurd hold hseq
      · rw [handleData_empty hnil hnofin hdata]
        obtain ⟨l, n, e, heq⟩ := handleWindow_eq x s
        rw [heq]
        exact ⟨hadv.live.trans hlive, hst, hadv.cb, hadv.inbuf, hadv.readSeq, hadv.rcvNxt,
          hadv.rcvWnd, hwnd, hadv.trace, huna, hnxt, hbuf⟩

/-- Whatever is received moves `rcv_nxt`. -/
theorem carries_nothing {nxt : Uint} (hspace : s.seq.toNat + s.span < 2 ^ 32)
    (hnxt : nxt + BitVec.ofNat 32 s.data.length + (if s.isFin then 1 else 0) = nxt) :
    s.data = [] ∧ s.isFin = false := by
  have hnat := congrArg BitVec.toNat hnxt
  rw [Segment.span] at hspace
  rw [BitVec.toNat_add, BitVec.toNat_add, BitVec.toNat_ofNat] at hnat
  have hlt := nxt.isLt
  cases hfin : s.isFin with
  | true =>
      exfalso
      have hone : (1 : Uint).toNat = 1 := rfl
      rw [hfin] at hnat hspace
      simp only [if_true, hone] at hnat hspace
      omega
  | false =>
      have hzero : (0 : Uint).toNat = 0 := rfl
      rw [hfin] at hnat hspace
      simp only [Bool.false_eq_true, if_false, hzero] at hnat hspace
      exact ⟨List.eq_nil_of_length_eq_zero (by omega), rfl⟩

/-- A segment that leaves the connection as it is is ignorable. -/
theorem Unaffected.ignorable (h : Unaffected c s c') (hstate : receives c.tcb.state = true)
    (hspace : s.seq.toNat + s.span < 2 ^ 32) (htcp : handleTcp (c.receive s) s now = some c') :
    Ignorable c s := by
  rcases handleTcp_cases htcp with ⟨-, hrst⟩ | ⟨-, hdone⟩ | ⟨hrst, x, hnext, hrest⟩
  · obtain ⟨m, ev, b, -, -, rfl⟩ := handleRst_eq hrst
    exact absurd h.live nofun
  · obtain ⟨x, hx, -⟩ := handleAck_advanced (c := c.receive s) hstate hdone
    cases hx
  · obtain ⟨x, hx, hadv, hst⟩ := handleAck_advanced (c := c.receive s) hstate hnext
    cases hx
    have hrecv : receives x.tcb.state = true := by
      rw [hst]
      split
      · rfl
      · exact hstate
    -- the segment is old, or it is taken for the next one
    obtain ⟨huna, hkeep, hcarries⟩ : c'.tcb.sndUna = x.tcb.sndUna ∧
        (c'.tcb.state = .finWait1 → x.tcb.state = .finWait1) ∧
        (s.seq < x.tcb.rcvNxt ∨ c'.tcb.sndWnd = s.wnd.setWidth 32 ∧ c'.tcb.rcvNxt =
          x.tcb.rcvNxt + BitVec.ofNat 32 s.data.length + (if s.isFin then 1 else 0)) := by
      rcases hrest with ⟨hseq, rfl⟩ | ⟨-, hdata⟩
      · obtain ⟨l, n, e, la, heq⟩ := handleOld_eq x
        rw [heq]
        exact ⟨rfl, id, .inl hseq⟩
      · obtain ⟨l, n, e, heq⟩ := handleWindow_eq x s
        rw [heq] at hdata
        have hw := handleData_carried (by exact hrecv) hdata
        exact ⟨hw.sndUna, hw.state, .inr ⟨hw.sndWnd, hw.rcvNxt⟩⟩
    refine ⟨hrst, fun hack hlt => ?_, fun hfin => ?_, ?_⟩
    · have hnew : c'.tcb.sndUna = s.ack := huna.trans (hadv.new ⟨hack, hlt⟩).1
      rcases h.sndUna with hsame | ⟨hvalid, -⟩
      · rw [hsame] at hnew
        rw [hnew] at hlt
        exact absurd hlt (BitVec.lt_irrefl _)
      · exact hvalid.2.2
    · have hfin' : AcksFin (c.receive s) s := hfin
      have hx := hkeep (h.state.trans hfin.1)
      rw [hst, if_pos hfin'] at hx
      cases hx
    · rw [hadv.rcvNxt] at hcarries
      refine hcarries.imp id fun ⟨hwnd, hnxt⟩ => ⟨hwnd.symm.trans h.sndWnd, ?_⟩
      have hlen := carries_nothing hspace (hnxt.symm.trans h.rcvNxt)
      exact hlen

/-- A segment outside the receive window leaves an open connection as it is, but for its ACK
number, if and only if it is ignorable. -/
theorem unaffected_iff_ignorable (h : Reached Transition.Always c) (hlive : c.live = true)
    (hstate : c.tcb.state = .established ∨ c.tcb.state = .finWait1 ∨ c.tcb.state = .finWait2)
    (hout : Outside c s) :
    ∃ c', step c (.packet s now) = some c' ∧ (Unaffected c s c' ↔ Ignorable c s) := by
  have hrecv : receives c.tcb.state = true := by
    rcases hstate with hs | hs | hs <;> rw [hs] <;> rfl
  have hsound : Sound (c.receive s) :=
    ⟨(WellFormed.of_reached h).receive s, (Attached.of_reached h).of_eq rfl rfl rfl, hlive⟩
  obtain ⟨c', hc⟩ := Option.isSome_iff_exists.mp (hsound.handleTcp s now)
  refine ⟨c', ?_, fun hun => hun.ignorable hrecv hout.space hc,
    fun hign => hign.unaffected hlive hrecv hc⟩
  unfold step
  rw [if_pos hlive]
  exact hc

/-- A keepalive, one before `rcv_nxt`. -/
theorem unaffected_iff_ignorable_keepalive : ∃ c c', c.tcb.state = .established ∧
    step c (.packet ⟨1000, 0x10001, 0x10, 8192, []⟩ ⟨0, 0⟩) = some c' ∧
      Unaffected c ⟨1000, 0x10001, 0x10, 8192, []⟩ c' := by
  have hexec : (execFrom Transition.Always .tcpMapCb 0 (clientSyn 8192) (.connected 5)
      handshake).any (fun c => c.live = true ∧ c.tcb.state = .established ∧
        Outside c ⟨1000, 0x10001, 0x10, 8192, []⟩ ∧ c.tcb.sndUna = 0x10001 ∧
          c.tcb.rcvNxt = 1001) = true := by
    decide +kernel
  obtain ⟨c, hreach, hc⟩ := reached_of_exec hexec
  obtain ⟨hlive, hstate, hout, huna, hnxt⟩ := of_decide_eq_true hc
  obtain ⟨c', hstep, hiff⟩ :
      ∃ c', step c (.packet ⟨1000, 0x10001, 0x10, 8192, []⟩ ⟨0, 0⟩) = some c' ∧
        (Unaffected c ⟨1000, 0x10001, 0x10, 8192, []⟩ c' ↔
          Ignorable c ⟨1000, 0x10001, 0x10, 8192, []⟩) :=
    unaffected_iff_ignorable hreach hlive (.inl hstate) hout
  refine ⟨c, c', hstate, hstep, hiff.mpr ⟨by decide, fun _ hlt => ?_, fun hfin => ?_, .inl ?_⟩⟩
  · rw [huna] at hlt
    exact absurd hlt (by decide)
  · rw [AcksFin, hstate] at hfin
    exact absurd hfin.1 nofun
  · rw [hnxt]
    decide

/-- A reset with any sequence number deletes the block, and data far beyond the window is
received. -/
theorem affected_from_outside :
    (∃ c c', Reached Transition.Always c ∧ c.tcb.state = .established ∧
      0 < c.tcb.rcvWnd.toNat ∧ Outside c ⟨0x80000000, 0, 0x4, 0, []⟩ ∧
        step c (.packet ⟨0x80000000, 0, 0x4, 0, []⟩ ⟨0, 0⟩) = some c' ∧ c'.live = false) ∧
    ∃ c c', Reached Transition.Always c ∧ c.tcb.state = .established ∧
      0 < c.tcb.rcvWnd.toNat ∧ Outside c ⟨0x80000000, 0, 0x8, 0, [7]⟩ ∧
        step c (.packet ⟨0x80000000, 0, 0x8, 0, [7]⟩ ⟨0, 0⟩) = some c' ∧
          c'.tcb.inbuf.content = [7] ∧ c'.tcb.rcvNxt = c.tcb.rcvNxt + 1 := by
  have hreset : (execFrom Transition.Always .tcpMapCb 0 (clientSyn 8192) (.connected 5)
      handshake).any (fun c => c.tcb.state = .established ∧
        0 < c.tcb.rcvWnd.toNat ∧ Outside c ⟨0x80000000, 0, 0x4, 0, []⟩ ∧
          (step c (.packet ⟨0x80000000, 0, 0x4, 0, []⟩ ⟨0, 0⟩)).any
            fun c' => c'.live = false) = true := by
    decide +kernel
  have hdata : (execFrom Transition.Always .tcpMapCb 0 (clientSyn 8192) (.connected 5)
      handshake).any (fun c => c.tcb.state = .established ∧
        0 < c.tcb.rcvWnd.toNat ∧ Outside c ⟨0x80000000, 0, 0x8, 0, [7]⟩ ∧
          (step c (.packet ⟨0x80000000, 0, 0x8, 0, [7]⟩ ⟨0, 0⟩)).any
            fun c' => c'.tcb.inbuf.content = [7] ∧ c'.tcb.rcvNxt = c.tcb.rcvNxt + 1) = true := by
    decide +kernel
  constructor
  · obtain ⟨c, hreach, hc⟩ := reached_of_exec hreset
    obtain ⟨hstate, hwnd, hout, hnext⟩ := of_decide_eq_true hc
    obtain ⟨c', hstep, hc'⟩ := (Option.any_eq_true _ _).mp hnext
    exact ⟨c, c', hreach, hstate, hwnd, hout, hstep, of_decide_eq_true hc'⟩
  · obtain ⟨c, hreach, hc⟩ := reached_of_exec hdata
    obtain ⟨hstate, hwnd, hout, hnext⟩ := of_decide_eq_true hc
    obtain ⟨c', hstep, hc'⟩ := (Option.any_eq_true _ _).mp hnext
    exact ⟨c, c', hreach, hstate, hwnd, hout, hstep, of_decide_eq_true hc'⟩

end Ptrtd
