import Ptrtd.Model.Session
import Mathlib.Tactic.Basic

/-! # What each operation changes

One lemma for each function, saying which parts of a connection it may change. Everything
it does not name stays as it was, and the proofs about the daemon rely on these lemmas
instead of the function bodies. -/

namespace Ptrtd

variable {c c' : Conn}

/-! ## Scheduling and callbacks -/

theorem markForIfWrite_eq (c : Conn) : ∃ l n e, e.isSome = true ∧ markForIfWrite c =
    { c with
      ev := { c.ev with alwaysEventList := l, next := n }
      tcb := { c.tcb with eTcbSend := e } } := by
  rw [markForIfWrite]
  split
  · next h => exact ⟨_, _, c.tcb.eTcbSend, h, rfl⟩
  · exact ⟨_, _, some c.ev.next, rfl, rfl⟩

theorem tcpAccept_eq (c : Conn) : ∃ l n e, e.isSome = true ∧ tcpAccept c =
    { c with
      ev := { c.ev with alwaysEventList := l, next := n }
      tcb := { c.tcb with eTcbSend := e }
      trace := { c.trace with acceptCalled := true } } :=
  markForIfWrite_eq { c with trace := { c.trace with acceptCalled := true } }

theorem killMap_eq (h : killMap c = some c') : c.map.isSome ∧ ∃ l b, c' =
    { c with
      map := none
      ev := { c.ev with fdEventList := l }
      trace := { c.trace with closed := b } } := by
  rw [killMap, Option.map_eq_some_iff] at h
  obtain ⟨m, hm, rfl⟩ := h
  refine ⟨by simp [hm], ?_⟩
  rcases m with ⟨fd, _ | r, _ | w⟩ <;> exact ⟨_, _, rfl⟩

/-- What a callback that only registers socket events may change. -/
def MapChange (c c' : Conn) : Prop :=
  ∃ m l n, m.isSome = c.map.isSome ∧
    c' = { c with map := m, ev := { c.ev with fdEventList := l, next := n } }

theorem MapChange.rfl : MapChange c c := ⟨c.map, _, _, Eq.refl _, Eq.refl _⟩

theorem outputSpace_change {space : ℤ} (h : outputSpace c space = some c') : MapChange c c' := by
  rw [outputSpace, Option.map_eq_some_iff] at h
  obtain ⟨m, hm, hc'⟩ := h
  split at hc'
  · subst hc'
    exact ⟨_, _, _, by rw [hm, Option.isSome_some, Option.isSome_some], Eq.refl _⟩
  · subst hc'
    exact .rfl

theorem canRead_change (h : canRead c = some c') : MapChange c c' := by
  rw [canRead, Option.map_eq_some_iff] at h
  obtain ⟨m, hm, hc'⟩ := h
  split at hc'
  · subst hc'
    exact ⟨_, _, _, by rw [hm, Option.isSome_some, Option.isSome_some], Eq.refl _⟩
  · subst hc'
    exact .rfl

/-- The application can be called: it is the relay and has its map, or it is another. -/
def Callable (c : Conn) : Prop :=
  c.tcb.cb = some .otherCb ∨ c.tcb.cb = some .tcpMapCb ∧ c.map.isSome = true

theorem Callable.cb (h : Callable c) : c.tcb.cb.isSome = true := by
  rcases h with h | ⟨h, -⟩ <;> rw [h] <;> rfl

theorem cbOutputBufferSpace_change {space : ℤ} (h : cbOutputBufferSpace c space = some c') :
    Callable c ∧ MapChange c c' := by
  rw [cbOutputBufferSpace] at h
  split at h
  · cases h
  · next hcb =>
      obtain ⟨m, hm, -⟩ := Option.map_eq_some_iff.mp h
      exact ⟨.inr ⟨hcb, by rw [hm, Option.isSome_some]⟩, outputSpace_change h⟩
  · next hcb =>
      cases h
      exact ⟨.inl hcb, .rfl⟩

theorem cbDataAvailable_change (h : cbDataAvailable c = some c') : Callable c ∧ MapChange c c' := by
  rw [cbDataAvailable] at h
  split at h
  · cases h
  · next hcb =>
      obtain ⟨m, hm, -⟩ := Option.map_eq_some_iff.mp h
      exact ⟨.inr ⟨hcb, by rw [hm, Option.isSome_some]⟩, canRead_change h⟩
  · next hcb =>
      cases h
      exact ⟨.inl hcb, .rfl⟩

/-- `closing` kills the map of a relayed connection and does nothing else. -/
theorem cbClosing_cases (h : cbClosing c = some c') :
    c' = c ∧ c.tcb.cb ≠ some .tcpMapCb ∨ c.tcb.cb = some .tcpMapCb ∧ killMap c = some c' := by
  rw [cbClosing] at h
  split at h
  · next hcb =>
      cases h
      exact .inl ⟨rfl, by rw [hcb]; nofun⟩
  · next hcb => exact .inr ⟨hcb, h⟩
  · next hcb =>
      cases h
      exact .inl ⟨rfl, by rw [hcb]; nofun⟩

/-! ## Timers and windows -/

theorem ackTimer_eq (c : Conn) (ack : Uint) (now : Timeval) : ∃ l n e m w, ackTimer c ack now =
    { c with
      ev := { c.ev with timeEventList := l, next := n }
      tcb := { c.tcb with eTimeout := e, timeoutMark := m, sndCwnd := w } } := by
  rw [ackTimer]
  split
  · exact ⟨_, _, c.tcb.eTimeout, _, _, rfl⟩
  · dsimp only
    split
    · split <;> exact ⟨_, _, _, _, _, rfl⟩
    · exact ⟨_, _, c.tcb.eTimeout, _, _, rfl⟩

theorem updatedCwnd_le (t : Tcb) : updatedCwnd t ≤ t.sndWnd := by
  have hmin : ∀ w : Uint, (if w > t.sndWnd then t.sndWnd else w) ≤ t.sndWnd := by
    intro w
    split
    · exact BitVec.le_refl _
    · next h => exact BitVec.not_lt.mp h
  exact hmin _

/-- A timeout goes back to `snd_una` with a window of at most one segment. -/
theorem tcpTimeout_eq (c : Conn) : ∃ l n e w, e.isSome = true ∧ w ≤ c.tcb.mss ∧
    w ≤ c.tcb.sndWnd ∧ tcpTimeout c =
    { c with
      ev := { c.ev with alwaysEventList := l, next := n }
      tcb := { c.tcb with
        eTimeout := none, sndNxt := c.tcb.sndUna, rttMark := c.tcb.sndUna - 1
        sndCwnd := w, sndMax := c.tcb.sndUna + w, eTcbSend := e } } := by
  obtain ⟨t, ht⟩ : ∃ t, t =
      { c.tcb with
        eTimeout := none, sndNxt := c.tcb.sndUna, rttMark := c.tcb.sndUna - 1, sndCwnd := 0 } :=
    ⟨_, rfl⟩
  have hmss : updatedCwnd t ≤ c.tcb.mss := by
    rw [ht, updatedCwnd]
    simp only [if_true]
    split
    · next hgt => exact BitVec.le_of_lt hgt
    · exact BitVec.le_refl _
  have hwnd : updatedCwnd t ≤ c.tcb.sndWnd := by
    rw [ht]
    exact updatedCwnd_le _
  obtain ⟨l, n, e, he, heq⟩ := markForIfWrite_eq { c with tcb := windowUpdate t }
  refine ⟨l, n, e, updatedCwnd t, he, hmss, hwnd, ?_⟩
  rw [tcpTimeout, ← ht, heq]
  simp only [windowUpdate, ht]

theorem updatedCwnd_idem (t : Tcb) : updatedCwnd (windowUpdate t) = updatedCwnd t := by
  simp only [updatedCwnd, windowUpdate]
  grind

theorem windowUpdate_idem (t : Tcb) : windowUpdate (windowUpdate t) = windowUpdate t := by
  have h := updatedCwnd_idem t
  rw [windowUpdate, h]
  rfl

theorem handleWindow_eq (c : Conn) (s : Segment) : ∃ l n e, handleWindow c s =
    { c with
      ev := { c.ev with alwaysEventList := l, next := n }
      tcb := { windowUpdate { c.tcb with sndWnd := s.wnd.setWidth 32 } with eTcbSend := e } } := by
  rw [handleWindow]
  dsimp only
  split
  · split
    · obtain ⟨l, n, e, -, h⟩ := markForIfWrite_eq
        { c with tcb := windowUpdate { c.tcb with sndWnd := s.wnd.setWidth 32 } }
      exact ⟨l, n, e, h⟩
    · rw [windowUpdate_idem]
      exact ⟨_, _, _, rfl⟩
  · exact ⟨_, _, _, rfl⟩

theorem handleOld_eq (c : Conn) : ∃ l n e a, handleOld c =
    { c with
      ev := { c.ev with alwaysEventList := l, next := n }
      tcb := { c.tcb with eTcbSend := e, lastAcked := a } } := by
  rw [handleOld]
  split
  · exact ⟨_, _, _, _, rfl⟩
  · obtain ⟨l, n, e, -, h⟩ := markForIfWrite_eq
      { c with tcb := { c.tcb with lastAcked := c.tcb.lastAcked - 1 } }
    exact ⟨l, n, e, _, h⟩

/-! ## The blocks of `handle_tcp` -/

theorem handleTcp_cases {s : Segment} {now : Timeval} (h : handleTcp c s now = some c') :
    s.isRst = true ∧ handleRst c = some c' ∨
    s.isRst = false ∧ handleAck c s now = some (.done c') ∨
    s.isRst = false ∧ ∃ a, handleAck c s now = some (.next a) ∧
      (s.seq < a.tcb.rcvNxt ∧ c' = handleOld a ∨
        ¬s.seq < a.tcb.rcvNxt ∧ handleData (handleWindow a s) s now = some c') := by
  rw [handleTcp] at h
  split at h
  · next hrst => exact .inl ⟨hrst, h⟩
  · next hrst =>
      have hrst := Bool.eq_false_iff.mpr hrst
      obtain ⟨f, hf, h⟩ := Option.bind_eq_some_iff.mp h
      cases f with
      | done a =>
          cases h
          exact .inr (.inl ⟨hrst, hf⟩)
      | next a =>
          refine .inr (.inr ⟨hrst, a, hf, ?_⟩)
          dsimp only at h
          split at h
          · next hseq =>
              cases h
              exact .inl ⟨hseq, rfl⟩
          · next hseq => exact .inr ⟨hseq, h⟩

/-- The block for ACK: nothing, or an advance of `snd_una` if the number is new, and then
the switch when nothing is in flight. -/
theorem handleAck_cases {s : Segment} {now : Timeval} {f : Flow}
    (h : handleAck c s now = some f) :
    s.isAck = false ∧ f = .next c ∨
    s.isAck = true ∧ ∃ a,
      (c.tcb.sndUna < s.ack ∧ handleNewAck c s.ack now = some a ∨ ¬c.tcb.sndUna < s.ack ∧ a = c) ∧
      (a.tcb.sndUna = a.tcb.sndNxt ∧ handleAllAcked a now = some f ∨
        a.tcb.sndUna ≠ a.tcb.sndNxt ∧ f = .next a) := by
  rw [handleAck] at h
  split at h
  · next hack =>
      obtain ⟨a, ha, h⟩ := Option.bind_eq_some_iff.mp h
      refine .inr ⟨hack, a, ?_, ?_⟩
      · split at ha
        · next hnew => exact .inl ⟨hnew, ha⟩
        · next hnew =>
            cases ha
            exact .inr ⟨hnew, rfl⟩
      · split at h
        · next heq => exact .inl ⟨heq, h⟩
        · next hne =>
            cases h
            exact .inr ⟨hne, rfl⟩
  · next hack =>
      cases h
      exact .inl ⟨Bool.eq_false_iff.mpr hack, rfl⟩

/-- An advance of `snd_una` by a new ACK number. -/
theorem handleNewAck_eq {ack : Uint} {now : Timeval} (h : handleNewAck c ack now = some c') :
    ∃ m ev r d o e k w, m.isSome = c.map.isSome ∧
      o = (if c.tcb.state = .established then rbAdvance c.tcb.outbuf ack else c.tcb.outbuf) ∧
      (c.tcb.state = .synRecvd → ev = c.ev) ∧
      c' = { c with
        map := m
        ev := ev
        tcb := { c.tcb with
          srtt := r, sdev := d, outbuf := o
          sndUna := ack
          sndNxt := if ack > c.tcb.sndNxt then ack else c.tcb.sndNxt
          eTimeout := e, timeoutMark := k, sndCwnd := w } } := by
  have hack : ∃ r d, ackUna c.tcb ack now =
      { c.tcb with
        srtt := r, sdev := d, sndUna := ack
        sndNxt := if ack > c.tcb.sndNxt then ack else c.tcb.sndNxt } := by
    rw [ackUna]
    split <;> exact ⟨_, _, rfl⟩
  obtain ⟨r, d, hack⟩ := hack
  rw [handleNewAck, hack] at h
  dsimp only at h
  split at h
  · next hest =>
      obtain ⟨a, ha, rfl⟩ := Option.map_eq_some_iff.mp h
      obtain ⟨-, m, l, n, hm, rfl⟩ := cbOutputBufferSpace_change ha
      obtain ⟨l', n', e, k, w, heq⟩ := ackTimer_eq _ ack now
      have hne : c.tcb.state ≠ .synRecvd := by rw [hest]; nofun
      exact ⟨m, _, r, d, _, e, k, w, hm, (if_pos hest).symm, fun hs => absurd hs hne, heq⟩
  -- the other states that have a timer differ in nothing
  iterate 3
    · next hstate =>
        cases h
        obtain ⟨l', n', e, k, w, heq⟩ := ackTimer_eq _ ack now
        have hne : c.tcb.state ≠ .established := by rw [hstate]; nofun
        have hsyn : c.tcb.state ≠ .synRecvd := by rw [hstate]; nofun
        exact ⟨c.map, _, r, d, _, e, k, w, rfl, (if_neg hne).symm, fun hs => absurd hs hsyn, heq⟩
  · next hne _ _ _ =>
      cases h
      exact ⟨c.map, c.ev, r, d, _, _, _, _, rfl, (if_neg hne).symm, fun _ => rfl, rfl⟩

/-- The connection with which a block goes on or leaves. -/
def Flow.conn : Flow → Conn
  | .done c | .next c => c

/-- What the switch for "nothing is in flight" does. -/
inductive AllAcked (c : Conn) (now : Timeval) : Flow → Prop where
  | opened {a : Conn} : c.tcb.state = .synRecvd → Callable c →
      MapChange { c with tcb := { c.tcb with state := .established } } a → AllAcked c now (.next a)
  | deleted {ev : EventLists} : c.tcb.state = .lastAck →
      AllAcked c now (.done { c with live := false, ev := ev })
  | finAcked : c.tcb.state = .finWait1 → rbAvail c.tcb.outbuf c.tcb.sndNxt = -1 →
      AllAcked c now (.next { c with tcb := { c.tcb with state := .finWait2 } })
  | bothClosed : c.tcb.state = .closing → rbAvail c.tcb.outbuf c.tcb.sndNxt = -1 →
      AllAcked c now (.done (enterTimeWait c now))
  | stillClosing : c.tcb.state = .closing → rbAvail c.tcb.outbuf c.tcb.sndNxt ≠ -1 →
      AllAcked c now (.done c)
  | other : c.tcb.state ≠ .synRecvd → c.tcb.state ≠ .lastAck → c.tcb.state ≠ .closing →
      AllAcked c now (.next c)

theorem handleAllAcked_effect {now : Timeval} {f : Flow} (h : handleAllAcked c now = some f) :
    AllAcked c now f := by
  rw [handleAllAcked] at h
  split at h
  · next hstate =>
      obtain ⟨a, ha, rfl⟩ := Option.map_eq_some_iff.mp h
      obtain ⟨hcb, hchange⟩ := cbOutputBufferSpace_change ha
      exact .opened hstate hcb hchange
  · next hstate =>
      cases h
      exact .deleted hstate
  · next hstate =>
      split at h
      · next havail =>
          cases h
          exact .finAcked hstate havail
      · cases h
        exact .other (by rw [hstate]; nofun) (by rw [hstate]; nofun) (by rw [hstate]; nofun)
  · next hstate =>
      split at h
      · next havail =>
          cases h
          exact .bothClosed hstate havail
      · next havail =>
          cases h
          exact .stillClosing hstate havail
  · next hsyn hlast _ hclosing =>
      cases h
      exact .other hsyn hlast hclosing

/-- What `tcp_recv_data` makes of the payload: it is ignored, or as much of it as fits is
stored. -/
def Stored (c : Conn) (s : Segment) (r : Ringbuf) (w : Uint) (x : List Uchar) : Prop :=
  (s.data.length = 0 ∨ c.tcb.cb = none) ∧ r = c.tcb.inbuf ∧ w = c.tcb.rcvWnd ∧ x = [] ∨
    0 < s.data.length ∧ Callable c ∧ ∃ n, rbWrite c.tcb.inbuf s.data = some (r, n) ∧
      w = BitVec.ofInt 32 (rbLeft r) ∧ x = s.data.take n

theorem recvPayload_eq {s : Segment} (h : recvPayload c s = some c') :
    ∃ m ev e r w x, m.isSome = c.map.isSome ∧ Stored c s r w x ∧
      ev.timeEventList = c.ev.timeEventList ∧ c' =
      { c with
        map := m
        ev := ev
        tcb := { c.tcb with
          rcvNxt := c.tcb.rcvNxt + BitVec.ofNat 32 s.data.length
          inbuf := r, rcvWnd := w, eTcbSend := e }
        trace := { c.trace with stored := c.trace.stored ++ x } } := by
  rw [recvPayload] at h
  split at h
  · next hlen =>
      obtain ⟨l, n, e, -, hmark⟩ := markForIfWrite_eq
        { c with tcb := { c.tcb with rcvNxt := c.tcb.rcvNxt + BitVec.ofNat 32 s.data.length } }
      rw [hmark] at h
      dsimp only at h
      split at h
      · next hcb =>
          obtain ⟨⟨r, k⟩, hw, h⟩ := Option.bind_eq_some_iff.mp h
          obtain ⟨hcall, m, lf, nf, hm, rfl⟩ := cbDataAvailable_change h
          refine ⟨m, _, e, r, _, _, hm, .inr ⟨hlen, hcall, k, hw, rfl, rfl⟩, ?_, rfl⟩
          rfl
      · next hcb =>
          cases h
          refine ⟨c.map, { c.ev with alwaysEventList := l, next := n }, e, c.tcb.inbuf,
            c.tcb.rcvWnd, [], rfl, .inl ⟨.inr (by simpa using hcb), rfl, rfl, rfl⟩, rfl, ?_⟩
          rw [List.append_nil]
  · next hlen =>
      cases h
      have hzero : s.data.length = 0 := by omega
      refine ⟨c.map, c.ev, c.tcb.eTcbSend, c.tcb.inbuf, c.tcb.rcvWnd, [], rfl,
        .inl ⟨.inl hzero, rfl, rfl, rfl⟩, rfl, ?_⟩
      rw [List.append_nil, hzero, BitVec.add_zero]

theorem recvFin_eq (c : Conn) (s : Segment) : ∃ l n e, recvFin c s =
    { c with
      ev := { c.ev with alwaysEventList := l, next := n }
      tcb := { c.tcb with
        rcvNxt := c.tcb.rcvNxt + (if s.isFin then 1 else 0)
        eTcbSend := e } } := by
  rw [recvFin]
  split
  · obtain ⟨l, n, e, -, heq⟩ := markForIfWrite_eq
      { c with tcb := { c.tcb with rcvNxt := c.tcb.rcvNxt + 1 } }
    exact ⟨l, n, e, heq⟩
  · refine ⟨c.ev.alwaysEventList, c.ev.next, c.tcb.eTcbSend, ?_⟩
    have hzero : c.tcb.rcvNxt + 0 = c.tcb.rcvNxt := BitVec.add_zero _
    rw [hzero]

theorem tcpRecvData_eq {s : Segment} {fin : Bool} (h : tcpRecvData c s = some (c', fin)) :
    fin = s.isFin ∧ ∃ m ev e r w x, m.isSome = c.map.isSome ∧ Stored c s r w x ∧
      ev.timeEventList = c.ev.timeEventList ∧ c' =
      { c with
        map := m
        ev := ev
        tcb := { c.tcb with
          rcvNxt := c.tcb.rcvNxt + BitVec.ofNat 32 s.data.length + (if s.isFin then 1 else 0)
          inbuf := r, rcvWnd := w, eTcbSend := e }
        trace := { c.trace with stored := c.trace.stored ++ x } } := by
  rw [tcpRecvData, Option.map_eq_some_iff] at h
  obtain ⟨a, ha, h⟩ := h
  obtain ⟨rfl, rfl⟩ := Prod.mk.inj h
  obtain ⟨m, ev, e, r, w, x, hm, hstored, htime, rfl⟩ := recvPayload_eq ha
  obtain ⟨l, n, e', heq⟩ := recvFin_eq _ s
  exact ⟨rfl, m, { ev with alwaysEventList := l, next := n }, e', r, w, x, hm, hstored, htime, heq⟩

theorem enterTimeWait_eq (c : Conn) (now : Timeval) : ∃ l n e, enterTimeWait c now =
    { c with
      ev := { c.ev with timeEventList := l, next := n }
      tcb := { c.tcb with state := .timeWait, eTimeout := e } } :=
  ⟨_, _, _, rfl⟩

/-! ## Closing -/

/-- A reset: the block is deleted. -/
theorem tcpClose_reset {hard : Bool} (h : hard = true ∨ c.tcb.state = .synRecvd) :
    ∃ ev, tcpClose c hard =
      { c with
        live := false
        ev := ev
        tcb := { c.tcb with lastAcked := c.tcb.rcvNxt }
        trace := c.trace.send c.tcb.iss (makeTcpHdr c.tcb [] 0x14).2 } := by
  rw [tcpClose, if_pos h]
  exact ⟨_, rfl⟩

/-- An orderly close: a FIN is queued. -/
theorem tcpClose_fin (h : c.tcb.state ≠ .synRecvd) : ∃ l n e, e.isSome = true ∧
    tcpClose c false =
      { c with
        ev := { c.ev with alwaysEventList := l, next := n }
        tcb := { c.tcb with
          cb := none
          rcvWnd := 1000
          state := if c.tcb.state = .established then .finWait1 else .lastAck
          eTcbSend := e } } := by
  rw [tcpClose, if_neg (by simpa using h)]
  exact markForIfWrite_eq _

/-- `tcp_close` resets the connection, or makes its FIN due. -/
inductive TcpClosed (c : Conn) (hard : Bool) : Conn → Prop where
  | reset {ev : EventLists} : hard = true ∨ c.tcb.state = .synRecvd → TcpClosed c hard
      { c with
        live := false
        ev := ev
        tcb := { c.tcb with lastAcked := c.tcb.rcvNxt }
        trace := c.trace.send c.tcb.iss (makeTcpHdr c.tcb [] 0x14).2 }
  | fin {l : List Event} {n : ℕ} {e : Option ℕ} : c.tcb.state ≠ .synRecvd → e.isSome = true →
      TcpClosed c hard
        { c with
          ev := { c.ev with alwaysEventList := l, next := n }
          tcb := { c.tcb with
            cb := none
            rcvWnd := 1000
            state := if c.tcb.state = .established then .finWait1 else .lastAck
            eTcbSend := e } }

theorem tcpClose_cases {hard : Bool} (h : tcpClose c hard = c') : TcpClosed c hard c' := by
  by_cases hreset : hard = true ∨ c.tcb.state = .synRecvd
  · obtain ⟨ev, heq⟩ := tcpClose_reset hreset
    rw [← h, heq]
    exact .reset hreset
  · obtain ⟨hsoft, hsyn⟩ := not_or.mp hreset
    rw [Bool.not_eq_true] at hsoft
    subst hsoft
    obtain ⟨l, n, e, he, heq⟩ := tcpClose_fin hsyn
    rw [← h, heq]
    exact .fin hsyn he

/-! ## Sending -/

theorem tcpSend_eq {data : List Uchar} (h : tcpSend c data = some c') : ∃ r k l n e,
    rbWrite c.tcb.outbuf data = some (r, k) ∧ c' =
      { c with
        ev := { c.ev with alwaysEventList := l, next := n }
        tcb := { c.tcb with outbuf := r, eTcbSend := e }
        trace := { c.trace with written := c.trace.written ++ data.take k } } := by
  rw [tcpSend, Option.map_eq_some_iff] at h
  obtain ⟨⟨r, k⟩, hw, rfl⟩ := h
  refine ⟨r, k, ?_⟩
  dsimp only
  split
  · obtain ⟨l, n, e, -, heq⟩ := markForIfWrite_eq
      { c with
        tcb := { c.tcb with outbuf := r }
        trace := { c.trace with written := c.trace.written ++ data.take k } }
    exact ⟨l, n, e, hw, heq⟩
  · exact ⟨_, _, _, hw, rfl⟩

/-- How much `tcp_read` reads when `len` bytes are asked for. -/
def readLen (t : Tcb) (len : ℤ) : ℤ :=
  if len > rbAvail t.inbuf t.readSeq then rbAvail t.inbuf t.readSeq else len

theorem tcpRead_eq {len : ℤ} {d : List Uchar} (h : tcpRead c len = some (c', d)) : ∃ l n e a,
    rbRead c.tcb.inbuf c.tcb.readSeq (readLen c.tcb len) = some d ∧ c' =
      { c with
        ev := { c.ev with alwaysEventList := l, next := n }
        tcb := { c.tcb with
          readSeq := c.tcb.readSeq + BitVec.ofNat 32 d.length
          inbuf := rbAdvance c.tcb.inbuf (c.tcb.readSeq + BitVec.ofNat 32 d.length)
          rcvWnd := BitVec.ofInt 32
            (rbLeft (rbAdvance c.tcb.inbuf (c.tcb.readSeq + BitVec.ofNat 32 d.length)))
          eTcbSend := e
          lastAcked := a } } := by
  rw [tcpRead, Option.map_eq_some_iff] at h
  obtain ⟨b, hb, h⟩ := h
  dsimp only at h
  split at h
  · obtain ⟨rfl, rfl⟩ := Prod.mk.inj h
    obtain ⟨l, n, e, -, heq⟩ := markForIfWrite_eq _
    exact ⟨l, n, e, _, hb, heq⟩
  · obtain ⟨rfl, rfl⟩ := Prod.mk.inj h
    exact ⟨_, _, _, _, hb, rfl⟩

/-- What `do_tcb_write` does: it sends the SYN/ACK, finds nothing to send, or emits one
segment. -/
inductive Wrote (c : Conn) (now : Timeval) : Conn → Bool → Prop where
  | syn : c.tcb.state = .synRecvd →
      Wrote c now
        { c with
          tcb := { c.tcb with
            lastAcked := c.tcb.rcvNxt, sndNxt := c.tcb.sndNxt + 1, eTcbSend := none }
          trace := c.trace.send c.tcb.iss (makeTcpHdr c.tcb [] 0x12).2 } false
  | nothing : c.tcb.state ≠ .synRecvd → sendData c.tcb = some [] → finDue c.tcb 0 = false →
      Wrote c now { c with tcb := { c.tcb with eTcbSend := none } } false
  | segment {data : List Uchar} {a : Conn} {e : Option ℕ} :
      c.tcb.state ≠ .synRecvd → sendData c.tcb = some data →
      a = emitSegment c data (finDue c.tcb data.length) now →
      (e = if sendAgain a.tcb then a.tcb.eTcbSend else none) →
      Wrote c now { a with tcb := { a.tcb with eTcbSend := e } } e.isSome

theorem doTcbWrite_effect {now : Timeval} {again : Bool}
    (h : doTcbWrite c now = some (c', again)) : Wrote c now c' again := by
  rw [doTcbWrite] at h
  split at h
  · next hstate =>
      cases h
      exact .syn hstate
  · next hstate =>
      obtain ⟨⟨a, more⟩, ha, h⟩ := Option.map_eq_some_iff.mp h
      obtain ⟨data, hdata, ha⟩ := Option.map_eq_some_iff.mp ha
      dsimp only at ha
      split at ha
      · next hnothing =>
          obtain ⟨rfl, rfl⟩ := Prod.mk.inj ha
          cases h
          have hnil : data = [] := List.eq_nil_of_length_eq_zero hnothing.1
          subst hnil
          exact .nothing hstate hdata (by simpa using hnothing.2.1)
      · obtain ⟨rfl, rfl⟩ := Prod.mk.inj ha
        cases h
        have hseg : Wrote c now _ _ := Wrote.segment hstate hdata rfl rfl
        by_cases hmore : sendAgain (emitSegment c data (finDue c.tcb data.length) now).tcb = true
        · simpa [hmore] using hseg
        · simpa [hmore] using hseg

theorem emitSegment_eq (c : Conn) (data : List Uchar) (fin : Bool) (now : Timeval) :
    ∃ l n e k m r w a, emitSegment c data fin now =
      { c with
        ev := { c.ev with timeEventList := l, next := n }
        tcb := { c.tcb with
          sndNxt := c.tcb.sndNxt + BitVec.ofNat 32 data.length + (if fin then 1 else 0)
          eTimeout := e, timeoutMark := k, rttMark := m, rttTime := r, rttLimit := w
          lastAcked := a }
        trace := c.trace.send c.tcb.iss
          { seq := c.tcb.sndNxt, ack := c.tcb.rcvNxt
            flags := sendFlags (pushDue c.tcb data.length) fin
            wnd := c.tcb.rcvWnd.setWidth 16, data } } := by
  have hrtt : ∀ t : Tcb, ∃ m r,
      startRtt t data.length now = { t with rttMark := m, rttTime := r } := by
    intro t
    rw [startRtt]
    split <;> exact ⟨_, _, rfl⟩
  simp only [emitSegment]
  split
  · obtain ⟨m, r, hrtt⟩ := hrtt (setTimeout c now).tcb
    rw [hrtt]
    exact ⟨_, _, _, _, m, r, _, _, rfl⟩
  · obtain ⟨m, r, hrtt⟩ := hrtt c.tcb
    rw [hrtt]
    exact ⟨_, _, _, _, m, r, _, _, rfl⟩

/-! ## Closing with the map -/

/-- A reset kills the map, if there is one, and deletes the block. -/
theorem handleRst_eq (h : handleRst c = some c') : ∃ m ev b,
    (m = none ∨ c.tcb.cb ≠ some .tcpMapCb ∧ m = c.map) ∧
      (b = c.trace.closed ∨ c.map.isSome = true) ∧
        c' =
          { c with live := false, map := m, ev := ev, trace := { c.trace with closed := b } } := by
  rw [handleRst, Option.map_eq_some_iff] at h
  obtain ⟨a, ha, rfl⟩ := h
  rcases cbClosing_cases ha with ⟨rfl, hcb⟩ | ⟨-, hkill⟩
  · exact ⟨a.map, _, a.trace.closed, .inr ⟨hcb, rfl⟩, .inl rfl, rfl⟩
  · obtain ⟨hm, l, b, rfl⟩ := killMap_eq hkill
    exact ⟨none, _, b, .inl rfl, .inr hm, rfl⟩

/-- The peer's FIN kills the map, if there is one, and queues our FIN. -/
theorem tcpRemoteClose_eq (hstate : c.tcb.state = .closeWait) (h : tcpRemoteClose c = some c') :
    ∃ m ev e b, (m = none ∨ c.tcb.cb ≠ some .tcpMapCb ∧ m = c.map) ∧
      (b = c.trace.closed ∨ c.map.isSome = true) ∧ e.isSome = true ∧
      ev.timeEventList = c.ev.timeEventList ∧ c' =
      { c with
        map := m
        ev := ev
        tcb := { c.tcb with cb := none, rcvWnd := 1000, state := .lastAck, eTcbSend := e }
        trace := { c.trace with closed := b } } := by
  rw [tcpRemoteClose, Option.map_eq_some_iff] at h
  obtain ⟨a, ha, rfl⟩ := h
  rcases cbClosing_cases ha with ⟨rfl, hcb⟩ | ⟨-, hkill⟩
  · obtain ⟨l, n, e, he, heq⟩ := tcpClose_fin (c := a) (by rw [hstate]; nofun)
    rw [hstate] at heq
    exact ⟨a.map, { a.ev with alwaysEventList := l, next := n }, e, a.trace.closed,
      .inr ⟨hcb, rfl⟩, .inl rfl, he, rfl, heq⟩
  · obtain ⟨hm, lf, b, rfl⟩ := killMap_eq hkill
    obtain ⟨l, n, e, he, heq⟩ := tcpClose_fin (c := { c with
      map := none
      ev := { c.ev with fdEventList := lf }
      trace := { c.trace with closed := b } }) (by rw [hstate]; nofun)
    simp only [hstate] at heq
    refine ⟨none, { c.ev with fdEventList := lf, alwaysEventList := l, next := n }, e, b, .inl rfl,
      .inr hm, he, rfl, ?_⟩
    rw [heq]
    rfl

/-- What closing both sides from the relay does. -/
inductive ClosedBoth (c : Conn) : Conn → Prop where
  | reset {ev : EventLists} {b : Bool} : c.tcb.state = .synRecvd →
      ClosedBoth c
        { c with
          live := false, map := none, ev := ev
          tcb := { c.tcb with lastAcked := c.tcb.rcvNxt }
          trace := { c.trace.send c.tcb.iss (makeTcpHdr c.tcb [] 0x14).2 with closed := b } }
  | fin {ev : EventLists} {e : Option ℕ} {b : Bool} : c.tcb.state ≠ .synRecvd →
      e.isSome = true → ev.timeEventList = c.ev.timeEventList →
      ClosedBoth c
        { c with
          map := none, ev := ev
          tcb := { c.tcb with
            cb := none, rcvWnd := 1000
            state := if c.tcb.state = .established then .finWait1 else .lastAck
            eTcbSend := e }
          trace := { c.trace with closed := b } }

theorem closeBoth_effect (h : closeBoth c = some c') : ClosedBoth c c' := by
  rw [closeBoth] at h
  by_cases hstate : c.tcb.state = .synRecvd
  · obtain ⟨ev, heq⟩ := @tcpClose_reset c false (.inr hstate)
    rw [heq] at h
    obtain ⟨-, l, b, rfl⟩ := killMap_eq h
    exact .reset hstate
  · obtain ⟨l, n, e, he, heq⟩ := tcpClose_fin hstate
    rw [heq] at h
    obtain ⟨-, lf, b, rfl⟩ := killMap_eq h
    exact .fin hstate he rfl

/-! ## Socket callbacks -/

/-- What `handle_fd_can_read` does. -/
inductive CanRead (c : Conn) (r : ReadResult) : Conn → Bool → Prop where
  | nothing {again : Bool} : CanRead c r c again
  | closed {m : Option TcpMap} {a : Conn} : r = .eof ∨ r = .error →
      ClosedBoth { c with map := m } a → CanRead c r a false
  | sent {d : List Uchar} {a : Conn} {m : Option TcpMap} {again : Bool} : r = .data d →
      (rbLeft c.tcb.outbuf < 0 ∨ (d.length : ℤ) ≤ rbLeft c.tcb.outbuf) →
      tcpSend c d = some a → m.isSome = true → CanRead c r { a with map := m } again

theorem handleFdCanRead_effect {r : ReadResult} {again : Bool}
    (h : handleFdCanRead c r = some (c', again)) : c.map.isSome ∧ CanRead c r c' again := by
  rw [handleFdCanRead, Option.bind_eq_some_iff] at h
  obtain ⟨m, hm, h⟩ := h
  refine ⟨by rw [hm, Option.isSome_some], ?_⟩
  dsimp only at h
  generalize hlen : (if tcpGetOutputSpace c.tcb < 0 ∨ tcpGetOutputSpace c.tcb > tbSize then
    (tbSize : ℤ) else tcpGetOutputSpace c.tcb) = len at h
  split at h
  · cases h
    exact .nothing
  · cases r with
    | again =>
        cases h
        exact .nothing
    | eof =>
        obtain ⟨a, ha, h⟩ := Option.map_eq_some_iff.mp h
        cases h
        exact .closed (.inl rfl) (closeBoth_effect ha)
    | error =>
        obtain ⟨a, ha, h⟩ := Option.map_eq_some_iff.mp h
        cases h
        exact .closed (.inr rfl) (closeBoth_effect ha)
    | data d =>
        dsimp only at h
        split at h
        · next hd =>
            obtain ⟨a, ha, h⟩ := Option.bind_eq_some_iff.mp h
            have hfit : tcpGetOutputSpace c.tcb < 0 ∨ (d.length : ℤ) ≤ tcpGetOutputSpace c.tcb := by
              split at hlen <;> omega
            have hmap : a.map = some m := by
              obtain ⟨_, _, _, _, _, -, rfl⟩ := tcpSend_eq ha
              exact hm
            split at h
            · cases h
              exact .sent rfl hfit ha rfl
            · cases h
              exact CanRead.sent (m := c'.map) rfl hfit ha (by rw [hmap, Option.isSome_some])
        · cases h

/-- What `handle_fd_can_write` does: the bytes read from `inbuf` are gone, whatever the
socket takes of them. -/
inductive CanWrite (c : Conn) (r : WriteResult) : Conn → Bool → Prop where
  | again {a : Conn} {d : List Uchar} {m : Option TcpMap} {b : Bool} : r = .again →
      tcpRead c tbSize = some (a, d) → m.isSome = true → CanWrite c r { a with map := m } b
  | closed {a a' : Conn} {d : List Uchar} {m : Option TcpMap} : r = .error ∨ r = .wrote 0 →
      tcpRead c tbSize = some (a, d) → ClosedBoth { a with map := m } a' → CanWrite c r a' false
  | wrote {a : Conn} {d : List Uchar} {n : ℕ} {m : Option TcpMap} {b : Bool} : r = .wrote n →
      n ≠ 0 → n ≤ d.length → tcpRead c tbSize = some (a, d) → m.isSome = true →
      CanWrite c r
        { a with
          map := m
          trace := { a.trace with relayed := a.trace.relayed ++ d.take n } } b

theorem handleFdCanWrite_effect {r : WriteResult} {again : Bool}
    (h : handleFdCanWrite c r = some (c', again)) : c.map.isSome ∧ CanWrite c r c' again := by
  rw [handleFdCanWrite, Option.bind_eq_some_iff] at h
  obtain ⟨m, hm, h⟩ := h
  refine ⟨by rw [hm, Option.isSome_some], ?_⟩
  obtain ⟨⟨a, d⟩, hread, h⟩ := Option.bind_eq_some_iff.mp h
  have hmap : a.map = some m := by
    obtain ⟨_, _, _, _, -, rfl⟩ := tcpRead_eq hread
    exact hm
  -- the map stays, with or without its write event
  obtain ⟨m', hm', hif⟩ : ∃ m' : Option TcpMap, m'.isSome = true ∧
      (if d.length < tbSize then { a with map := some { m with eFdWrite := none } } else a) =
        { a with map := m' } := by
    split
    · exact ⟨_, rfl, rfl⟩
    · exact ⟨a.map, by rw [hmap, Option.isSome_some], rfl⟩
  dsimp only at h
  rw [hif] at h
  split at h
  · cases h
    exact .again rfl hread hm'
  · obtain ⟨m'', -, h⟩ := Option.bind_eq_some_iff.mp h
    obtain ⟨a', ha', h⟩ := Option.map_eq_some_iff.mp h
    cases h
    exact .closed (.inl rfl) hread (closeBoth_effect ha')
  · next n =>
      split at h
      · next hn =>
          split at h
          · next hzero =>
              subst hzero
              obtain ⟨m'', -, h⟩ := Option.bind_eq_some_iff.mp h
              obtain ⟨a', ha', h⟩ := Option.map_eq_some_iff.mp h
              cases h
              rw [List.take_zero, List.append_nil] at ha'
              exact .closed (.inr rfl) hread (closeBoth_effect ha')
          · next hne =>
              cases h
              exact CanWrite.wrote (a := a) rfl hne hn hread hm'
      · cases h

/-- What `handle_fd_did_connect` does. -/
inductive DidConnect (c : Conn) (ok : Bool) : Conn → Bool → Prop where
  | accepted {m : Option TcpMap} : ok = true → m.isSome = true →
      DidConnect c ok (tcpAccept { c with map := m }) false
  | closed {m : Option TcpMap} {a : Conn} : ok = false → ClosedBoth { c with map := m } a →
      DidConnect c ok a false

theorem handleFdDidConnect_effect {ok again : Bool}
    (h : handleFdDidConnect c ok = some (c', again)) :
    c.map.isSome ∧ DidConnect c ok c' again := by
  rw [handleFdDidConnect, Option.bind_eq_some_iff] at h
  obtain ⟨m, hm, h⟩ := h
  refine ⟨by rw [hm, Option.isSome_some], ?_⟩
  dsimp only at h
  split at h
  · next hok =>
      cases h
      exact .accepted hok rfl
  · next hok =>
      obtain ⟨a, ha, h⟩ := Option.map_eq_some_iff.mp h
      cases h
      exact .closed (Bool.eq_false_iff.mpr hok) (closeBoth_effect ha)

/-! ## Received data -/

/-- What the final switch of `handle_tcp` does. -/
inductive Received (c : Conn) (s : Segment) (now : Timeval) : Conn → Prop where
  | ignored : c.tcb.state ≠ .finWait2 → c.tcb.state ≠ .finWait1 → c.tcb.state ≠ .established →
      Received c s now c
  | data {a : Conn} : s.isFin = false → tcpRecvData c s = some (a, false) →
      c.tcb.state = .finWait2 ∨ c.tcb.state = .finWait1 ∨ c.tcb.state = .established →
      Received c s now a
  | finWait2 {a : Conn} : c.tcb.state = .finWait2 → tcpRecvData c s = some (a, true) →
      Received c s now (enterTimeWait a now)
  | finWait1 {a : Conn} : c.tcb.state = .finWait1 → tcpRecvData c s = some (a, true) →
      Received c s now { a with tcb := { a.tcb with state := .closing } }
  | closeWait {a a' : Conn} : c.tcb.state = .established → s.isFin = true →
      tcpRecvData c s = some (a, true) →
      tcpRemoteClose { a with tcb := { a.tcb with state := .closeWait } } = some a' →
      Received c s now a'

theorem handleData_effect {s : Segment} {now : Timeval} (h : handleData c s now = some c') :
    Received c s now c' := by
  rw [handleData] at h
  split at h
  · next hstate =>
      obtain ⟨⟨a, fin⟩, ha, rfl⟩ := Option.map_eq_some_iff.mp h
      cases fin with
      | true => exact .finWait2 hstate ha
      | false => exact .data (tcpRecvData_eq ha).1.symm ha (.inl hstate)
  · next hstate =>
      obtain ⟨⟨a, fin⟩, ha, rfl⟩ := Option.map_eq_some_iff.mp h
      cases fin with
      | true => exact .finWait1 hstate ha
      | false => exact .data (tcpRecvData_eq ha).1.symm ha (.inr (.inl hstate))
  · next hstate =>
      obtain ⟨⟨a, fin⟩, ha, h⟩ := Option.bind_eq_some_iff.mp h
      cases fin with
      | true => exact .closeWait hstate (tcpRecvData_eq ha).1.symm ha h
      | false =>
          cases h
          exact .data (tcpRecvData_eq ha).1.symm ha (.inr (.inr hstate))
  · next h₂ h₁ hest =>
      cases h
      exact .ignored h₂ h₁ hest

end Ptrtd
