import Ptrtd.Verification.Session.WellFormed

/-! # The receive side of a connection

Seen from the receive buffer, a step does one of few things: it stores the payload of a
segment, it reads, it detaches the application, or it does nothing. -/

namespace Ptrtd

variable {c c' : Conn} {s : Segment} {now : Timeval}

/-- The application is attached: received data is stored for it. -/
def Conn.Attached (c : Conn) : Prop :=
  c.live = true ∧ (c.tcb.state = .synRecvd ∨ c.tcb.state = .established)

/-- Everything about a connection that concerns received data. -/
structure Intake where
  inbuf : Ringbuf
  readSeq : Uint
  rcvNxt : Uint
  rcvWnd : Uint
  irs : Uint
  stored : List Uchar
  relayed : List Uchar
  closed : Bool
  mapped : Bool

def Conn.intake (c : Conn) : Intake :=
  { inbuf := c.tcb.inbuf
    readSeq := c.tcb.readSeq
    rcvNxt := c.tcb.rcvNxt
    rcvWnd := c.tcb.rcvWnd
    irs := c.tcb.irs
    stored := c.trace.stored
    relayed := c.trace.relayed
    closed := c.trace.closed
    mapped := c.map.isSome }

/-- The segment establishes a connection in `SYN_RECVD`: afterwards `snd_una` is `snd_nxt`. -/
def Establishes (c : Conn) (s : Segment) : Prop :=
  s.isAck = true ∧ (c.tcb.sndUna < s.ack ∧ c.tcb.sndNxt ≤ s.ack ∨
    ¬c.tcb.sndUna < s.ack ∧ c.tcb.sndUna = c.tcb.sndNxt)

instance (c : Conn) (s : Segment) : Decidable (Establishes c s) :=
  inferInstanceAs (Decidable (_ ∧ _))

/-- `handle_tcp` will pass the payload of the segment to `tcp_recv_data` while the
application is attached. -/
def Accepts (c : Conn) (s : Segment) : Prop :=
  s.isRst = false ∧ ¬s.seq < c.tcb.rcvNxt ∧
    (c.tcb.state = .established ∨ c.tcb.state = .synRecvd ∧ Establishes c s)

instance (c : Conn) (s : Segment) : Decidable (Accepts c s) :=
  inferInstanceAs (Decidable (_ ∧ _ ∧ _))

/-- The application has been detached, and the map is gone. What was stored stays. -/
structure Detached (c c' : Conn) : Prop where
  attached : ¬c'.Attached
  mapped : c'.intake.mapped = false
  irs : c'.tcb.irs = c.tcb.irs
  stored : c'.trace.stored = c.trace.stored
  relayed : c'.trace.relayed = c.trace.relayed
  closed : c'.trace.closed = c.trace.closed ∨ c.map.isSome = true

/-- The steps, seen from the receive side. -/
inductive IntakeStep (c : Conn) : Input → Conn → Prop where
  | idle {i : Input} {c' : Conn} :
      c'.intake = c.intake → (c'.Attached → c.Attached) → IntakeStep c i c'
  | unattached {i : Input} {c' : Conn} {nxt wnd : Uint} :
      ¬c'.Attached → c'.intake = { c.intake with rcvNxt := nxt, rcvWnd := wnd } → IntakeStep c i c'
  | data {s : Segment} {now : Timeval} {c' : Conn} {r : Ringbuf} {w : Uint} {x : List Uchar} :
      c.Attached → Accepts c s → Stored c s r w x →
      c'.intake =
        { c.intake with
          inbuf := r
          rcvNxt := c.tcb.rcvNxt + BitVec.ofNat 32 s.data.length
          rcvWnd := w
          stored := c.trace.stored ++ x } →
      IntakeStep c (.packet s now) c'
  | fin {s : Segment} {now : Timeval} {a c' : Conn} {r : Ringbuf} {w : Uint} {x : List Uchar} :
      c.Attached → Accepts c s → s.isFin = true → Stored c s r w x →
      a.intake =
        { c.intake with
          inbuf := r
          rcvNxt := c.tcb.rcvNxt + BitVec.ofNat 32 s.data.length + 1
          rcvWnd := w
          stored := c.trace.stored ++ x } →
      Detached a c' → IntakeStep c (.packet s now) c'
  | reset {s : Segment} {now : Timeval} {c' : Conn} :
      s.isRst = true → Detached c c' → IntakeStep c (.packet s now) c'
  | eof {addr : ℕ} {r : ReadResult} {c' : Conn} :
      c.map.isSome = true → r = .eof ∨ r = .error → Detached c c' →
      IntakeStep c (.fdEvent addr (.read r)) c'
  | notConnected {addr : ℕ} {c' : Conn} :
      Detached c c' → IntakeStep c (.fdEvent addr (.connect false)) c'
  | appClose {hard : Bool} {c' : Conn} :
      c.tcb.cb = some .otherCb → Detached c c' → IntakeStep c (.call (.close hard)) c'
  | appRead {n : ℕ} {d : List Uchar} {c' : Conn} :
      c.tcb.cb = some .otherCb → tcpRead c n = some (c', d) → IntakeStep c (.call (.read n)) c'
  | write {addr : ℕ} {r : WriteResult} {d : List Uchar} {a c' : Conn} {x : List Uchar} :
      c.map.isSome = true → tcpRead c tbSize = some (a, d) →
      (r = .again ∧ x = [] ∨ ∃ n, r = .wrote n ∧ n ≠ 0 ∧ n ≤ d.length ∧ x = d.take n) →
      c'.intake = { a.intake with relayed := a.trace.relayed ++ x, mapped := true } →
      (c'.Attached → a.Attached) → IntakeStep c (.fdEvent addr (.write r)) c'
  | writeFailed {addr : ℕ} {r : WriteResult} {d : List Uchar} {a c' : Conn} :
      c.map.isSome = true → r = .error ∨ r = .wrote 0 → tcpRead c tbSize = some (a, d) →
      Detached a c' → IntakeStep c (.fdEvent addr (.write r)) c'

/-! ## Parts that do not concern the receive side -/

theorem handleNewAck_intake {ack : Uint} (h : handleNewAck c ack now = some c') :
    c'.intake = c.intake ∧ c'.tcb.state = c.tcb.state ∧ c'.live = c.live ∧
      c'.tcb.cb = c.tcb.cb := by
  obtain ⟨m, ev, r, d, o, e, k, w, hm, -, -, rfl⟩ := handleNewAck_eq h
  refine ⟨?_, rfl, rfl, rfl⟩
  simp only [Conn.intake, hm]

/-- The block for ACK leaves the receive side alone. It may establish the connection, and
it may lead from one state of an orderly close to the next. -/
structure AckIntake (c c' : Conn) : Prop where
  intake : c'.intake = c.intake
  cb : c'.tcb.cb = c.tcb.cb
  attached : c'.Attached → c.Attached
  closing : ¬c.Attached → ¬c'.Attached
  established : c'.tcb.state = .established →
    c.tcb.state = .established ∨ c.tcb.state = .synRecvd

theorem handleAllAcked_intake {f : Flow} (hf : handleAllAcked c now = some f) :
    AckIntake c f.conn := by
  cases handleAllAcked_effect hf with
  | opened hstate hcb hchange =>
      obtain ⟨m, l, n, hm, rfl⟩ := hchange
      refine ⟨?_, rfl, fun h => ⟨h.1, .inl hstate⟩, fun h h' => h ⟨h'.1, .inl hstate⟩,
        fun _ => .inr hstate⟩
      simp only [Flow.conn, Conn.intake, hm]
  | deleted hstate =>
      exact ⟨rfl, rfl, fun h => absurd h.1 Bool.false_ne_true,
        fun _ h => absurd h.1 Bool.false_ne_true, .inl⟩
  | finAcked hstate =>
      refine ⟨rfl, rfl, ?_, ?_, by rintro ⟨⟩⟩
      · rintro ⟨-, hs | hs⟩ <;> cases hs
      · rintro - ⟨-, hs | hs⟩ <;> cases hs
  | bothClosed hstate =>
      obtain ⟨l, n, e, heq⟩ := enterTimeWait_eq c now
      rw [Flow.conn, heq]
      refine ⟨rfl, rfl, ?_, ?_, by rintro ⟨⟩⟩
      · rintro ⟨-, hs | hs⟩ <;> cases hs
      · rintro - ⟨-, hs | hs⟩ <;> cases hs
  | stillClosing => exact ⟨rfl, rfl, id, id, .inl⟩
  | other => exact ⟨rfl, rfl, id, id, .inl⟩

/-- The number in the ACK, and the test behind it. -/
theorem establishes_of_acked {a : Conn} (hack : s.isAck = true)
    (hnew : c.tcb.sndUna < s.ack ∧ handleNewAck c s.ack now = some a ∨
      ¬c.tcb.sndUna < s.ack ∧ a = c) (hacked : a.tcb.sndUna = a.tcb.sndNxt) : Establishes c s := by
  refine ⟨hack, ?_⟩
  rcases hnew with ⟨hlt, hnew⟩ | ⟨hnot, rfl⟩
  · obtain ⟨m, ev, r, d, o, e, k, w, -, -, -, rfl⟩ := handleNewAck_eq hnew
    refine .inl ⟨hlt, ?_⟩
    dsimp only at hacked
    split at hacked
    · next hgt => exact BitVec.le_of_lt hgt
    · exact hacked ▸ BitVec.le_refl _
  · exact .inr ⟨hnot, hacked⟩

theorem handleAck_intake {f : Flow} (hf : handleAck c s now = some f) :
    AckIntake c f.conn ∧ (f.conn.tcb.state = .established →
      c.tcb.state = .established ∨ c.tcb.state = .synRecvd ∧ Establishes c s) := by
  rcases handleAck_cases hf with ⟨-, rfl⟩ | ⟨hack, a, hnew, hall⟩
  · exact ⟨⟨rfl, rfl, id, id, .inl⟩, .inl⟩
  · obtain ⟨hin, hstate, hlive, hcb⟩ : a.intake = c.intake ∧ a.tcb.state = c.tcb.state ∧
        a.live = c.live ∧ a.tcb.cb = c.tcb.cb := by
      rcases hnew with ⟨-, hnew⟩ | ⟨-, rfl⟩
      · exact handleNewAck_intake hnew
      · exact ⟨rfl, rfl, rfl, rfl⟩
    have hatt : a.Attached ↔ c.Attached := by rw [Conn.Attached, hstate, hlive, Conn.Attached]
    have hflow : AckIntake a f.conn ∧ (f.conn.tcb.state = .established →
        c.tcb.state = .established ∨ c.tcb.state = .synRecvd ∧ Establishes c s) := by
      rcases hall with ⟨hacked, hall⟩ | ⟨-, rfl⟩
      · have hflow := handleAllAcked_intake hall
        refine ⟨hflow, fun hest => (hstate ▸ hflow.established hest).imp_right fun hsyn => ?_⟩
        exact ⟨hsyn, establishes_of_acked hack hnew hacked⟩
      · exact ⟨⟨rfl, rfl, id, id, .inl⟩, fun hest => .inl (hstate ▸ hest)⟩
    obtain ⟨hflow, hest⟩ := hflow
    refine ⟨⟨hflow.intake.trans hin, hflow.cb.trans hcb, fun h => hatt.mp (hflow.attached h),
      fun h => hflow.closing (mt hatt.mp h), fun h => hstate ▸ hflow.established h⟩, hest⟩

theorem handleWindow_intake (c : Conn) (s : Segment) :
    (handleWindow c s).intake = c.intake ∧ (handleWindow c s).tcb.state = c.tcb.state ∧
      (handleWindow c s).live = c.live ∧ (handleWindow c s).tcb.cb = c.tcb.cb := by
  obtain ⟨l, n, e, heq⟩ := handleWindow_eq c s
  rw [heq]
  exact ⟨rfl, rfl, rfl, rfl⟩

theorem closedBoth_detached {m : Option TcpMap} {a : Conn} {l : List Event}
    (h : ClosedBoth { c with map := m } a) (hm : c.map.isSome = true) :
    Detached c { a with ev := { a.ev with fdEventList := l } } := by
  cases h with
  | reset => exact ⟨fun h => absurd h.1 nofun, rfl, rfl, rfl, rfl, .inr hm⟩
  | fin =>
      refine ⟨fun h => ?_, rfl, rfl, rfl, rfl, .inr hm⟩
      have := h.2
      dsimp only at this
      split at this <;> exact this.elim nofun nofun

theorem markForIfWrite_intake (c : Conn) : (markForIfWrite c).intake = c.intake ∧
    ((markForIfWrite c).Attached ↔ c.Attached) := by
  obtain ⟨l, n, e, -, heq⟩ := markForIfWrite_eq c
  rw [heq]
  exact ⟨rfl, Iff.rfl⟩

theorem tcpAccept_intake (c : Conn) : (tcpAccept c).intake = c.intake ∧
    ((tcpAccept c).Attached ↔ c.Attached) :=
  markForIfWrite_intake { c with trace := { c.trace with acceptCalled := true } }

theorem tcpSend_intake {d : List Uchar} (h : tcpSend c d = some c') :
    c'.intake = c.intake ∧ (c'.Attached ↔ c.Attached) := by
  obtain ⟨r, k, l, n, e, -, rfl⟩ := tcpSend_eq h
  exact ⟨rfl, Iff.rfl⟩

theorem tcpRead_intake {len : ℤ} {d : List Uchar} (h : tcpRead c len = some (c', d)) :
    c'.trace = c.trace ∧ c'.map = c.map ∧ c'.tcb.irs = c.tcb.irs ∧ c'.tcb.rcvNxt = c.tcb.rcvNxt ∧
      c'.tcb.rcvWnd = BitVec.ofInt 32 (rbLeft c'.tcb.inbuf) ∧ (c'.Attached ↔ c.Attached) := by
  obtain ⟨l, n, e, a, -, rfl⟩ := tcpRead_eq h
  exact ⟨rfl, rfl, rfl, rfl, rfl, Iff.rfl⟩

theorem wrote_intake {again : Bool} (h : Wrote c now c' again) :
    c'.intake = c.intake ∧ (c'.Attached ↔ c.Attached) := by
  cases h with
  | syn => exact ⟨rfl, Iff.rfl⟩
  | nothing => exact ⟨rfl, Iff.rfl⟩
  | segment _ _ ha _ =>
      obtain ⟨l, n, e, k, m, r, w, la, heq⟩ := emitSegment_eq c _ _ now
      rw [heq] at ha
      subst ha
      exact ⟨rfl, Iff.rfl⟩

theorem tcpClose_detached {hard : Bool} (h : WellFormed c) (hcb : c.tcb.cb = some .otherCb) :
    Detached c (tcpClose c hard) := by
  have hmap : c.map.isSome = false := by simp [h.map_none, hcb]
  generalize hclosed : tcpClose c hard = c'
  cases tcpClose_cases hclosed with
  | reset => exact ⟨fun hatt => absurd hatt.1 nofun, hmap, rfl, rfl, rfl, .inl rfl⟩
  | fin =>
      refine ⟨fun hatt => ?_, hmap, rfl, rfl, rfl, .inl rfl⟩
      have := hatt.2
      dsimp only at this
      split at this <;> exact this.elim nofun nofun

/-! ## Parts that do -/

theorem tcpRecvData_intake {fin : Bool} (hrecv : tcpRecvData c s = some (c', fin)) : ∃ r w x,
    Stored c s r w x ∧ c'.tcb.state = c.tcb.state ∧ c'.live = c.live ∧ c'.tcb.cb = c.tcb.cb ∧
      c'.intake =
      { c.intake with
        inbuf := r
        rcvNxt := c.tcb.rcvNxt + BitVec.ofNat 32 s.data.length + (if s.isFin then 1 else 0)
        rcvWnd := w
        stored := c.trace.stored ++ x } := by
  obtain ⟨-, m, ev, e, r, w, x, hm, hstored, -, rfl⟩ := tcpRecvData_eq hrecv
  refine ⟨r, w, x, hstored, rfl, rfl, rfl, ?_⟩
  simp only [Conn.intake, hm]

/-- Stored data is the same before and after parts that leave the receive side alone. -/
theorem Stored.congr {a : Conn} {r : Ringbuf} {w : Uint} {x : List Uchar} (h : Stored a s r w x)
    (hin : a.intake = c.intake) (hcb : a.tcb.cb = c.tcb.cb) : Stored c s r w x := by
  have hbuf : a.tcb.inbuf = c.tcb.inbuf := congrArg Intake.inbuf hin
  have hwnd : a.tcb.rcvWnd = c.tcb.rcvWnd := congrArg Intake.rcvWnd hin
  have hmap : a.map.isSome = c.map.isSome := congrArg Intake.mapped hin
  rwa [Stored, Callable, hbuf, hwnd, hmap, hcb] at h

theorem tcpRemoteClose_detached (h : WellFormed c)
    (hclose : tcpRemoteClose { c with tcb := { c.tcb with state := .closeWait } } = some c') :
    Detached c c' := by
  obtain ⟨m, ev, e, b, hm, hb, -, -, rfl⟩ := tcpRemoteClose_eq rfl hclose
  have hnone := h.map_killed hm
  exact ⟨fun hatt => hatt.2.elim nofun nofun, by rw [hnone]; rfl, rfl, rfl, rfl, hb⟩

/-- The final switch, while the application is attached. -/
theorem handleData_intake {a : Conn} (h : WellFormed a) (hacc : Accepts c s)
    (hatt : c.Attached) (hin : a.intake = c.intake) (hcb : a.tcb.cb = c.tcb.cb)
    (hstate : a.tcb.state = .established) (hdata : handleData a s now = some c') :
    IntakeStep c (.packet s now) c' := by
  have hnxt : a.tcb.rcvNxt = c.tcb.rcvNxt := congrArg Intake.rcvNxt hin
  have hold : a.trace.stored = c.trace.stored := congrArg Intake.stored hin
  cases handleData_effect hdata with
  | ignored _ _ hne => exact absurd hstate hne
  | data hfin hrecv _ =>
      obtain ⟨r, w, x, hstored, -, -, -, hc'⟩ := tcpRecvData_intake hrecv
      refine .data hatt hacc (hstored.congr hin hcb) ?_
      rw [hc', hin, hnxt, hold, hfin]
      simp
  | finWait2 hne => rw [hstate] at hne; cases hne
  | finWait1 hne => rw [hstate] at hne; cases hne
  | closeWait _ hfin hrecv hclose =>
      obtain ⟨hwf, -, -⟩ := h.tcpRecvData (by rw [hstate]; nofun) hrecv
      obtain ⟨r, w, x, hstored, -, -, -, hc'⟩ := tcpRecvData_intake hrecv
      refine .fin hatt hacc hfin (hstored.congr hin hcb) ?_
        (tcpRemoteClose_detached hwf hclose)
      rw [← hin, ← hnxt, ← hold]
      rw [hfin] at hc'
      exact hc'

/-- The final switch, once the application is detached. -/
theorem handleData_unattached {i : Input} {a : Conn} (h : WellFormed a)
    (hsyn : a.tcb.state ≠ .synRecvd) (hest : a.tcb.state ≠ .established)
    (hin : a.intake = c.intake) (hdata : handleData a s now = some c') : IntakeStep c i c' := by
  have hrest : ∀ {b fin}, tcpRecvData a s = some (b, fin) → b.tcb.state = a.tcb.state ∧
      ∃ nxt, b.intake = { c.intake with rcvNxt := nxt } := by
    intro b fin hrecv
    obtain ⟨r, w, x, hstored, hstate, -, -, hb⟩ := tcpRecvData_intake hrecv
    refine ⟨hstate, a.tcb.rcvNxt + BitVec.ofNat 32 s.data.length + (if s.isFin then 1 else 0), ?_⟩
    -- nothing is stored without an application
    rcases hstored with ⟨-, rfl, rfl, rfl⟩ | ⟨-, hcall, -⟩
    · rw [hb, ← hin, List.append_nil]
      rfl
    · have hcb := hcall.cb
      rw [h.cb_none hsyn hest] at hcb
      cases hcb
  cases handleData_effect hdata with
  | ignored => exact .idle hin fun hatt => absurd hatt.2 (not_or.mpr ⟨hsyn, hest⟩)
  | data _ hrecv _ =>
      obtain ⟨hstate, nxt, hb⟩ := hrest hrecv
      exact .unattached (fun hatt => hatt.2.elim (hstate ▸ hsyn) (hstate ▸ hest)) hb
  | finWait2 _ hrecv =>
      obtain ⟨-, nxt, hb⟩ := hrest hrecv
      exact .unattached (fun hatt => hatt.2.elim nofun nofun) hb
  | finWait1 _ hrecv =>
      obtain ⟨-, nxt, hb⟩ := hrest hrecv
      exact .unattached (fun hatt => hatt.2.elim nofun nofun) hb
  | closeWait hstate => exact absurd hstate hest

theorem handleTcp_intake (h : WellFormed c) (hlive : c.live = true)
    (htcp : handleTcp c s now = some c') : IntakeStep c (.packet s now) c' := by
  rcases handleTcp_cases htcp with ⟨hrst, hrst'⟩ | ⟨-, hdone⟩ | ⟨hrst, a, hnext, hrest⟩
  · obtain ⟨m, ev, b, hm, hb, rfl⟩ := handleRst_eq hrst'
    have hnone := h.map_killed hm
    exact .reset hrst ⟨fun hatt => absurd hatt.1 nofun, by rw [hnone]; rfl, rfl, rfl, rfl, hb⟩
  · have hack := (handleAck_intake hdone).1
    exact .idle hack.intake hack.attached
  · obtain ⟨hack, hopens⟩ := handleAck_intake hnext
    have ha : WellFormed a := h.handleAck hnext
    have hnxt : a.tcb.rcvNxt = c.tcb.rcvNxt := congrArg Intake.rcvNxt hack.intake
    rcases hrest with ⟨hseq, rfl⟩ | ⟨hseq, hdata⟩
    · obtain ⟨l, n, e, la, heq⟩ := handleOld_eq a
      rw [heq]
      exact .idle hack.intake hack.attached
    · obtain ⟨hin, hstate, hlive', hcb⟩ := handleWindow_intake a s
      have hb := ha.handleWindow s
      by_cases hest : a.tcb.state = .established
      · have hacc : Accepts c s := ⟨hrst, hnxt ▸ hseq, hopens hest⟩
        have hatt : c.Attached := ⟨hlive, (hack.established hest).symm⟩
        exact handleData_intake hb hacc hatt (hin.trans hack.intake) (hcb.trans hack.cb)
          (hstate.trans hest) hdata
      · by_cases hsyn : a.tcb.state = .synRecvd
        · cases handleData_effect hdata with
          | ignored =>
              refine .idle (hin.trans hack.intake) fun hatt => hack.attached ⟨?_, .inl hsyn⟩
              exact hlive' ▸ hatt.1
          | data _ _ hs => rw [hstate, hsyn] at hs; rcases hs with hs | hs | hs <;> cases hs
          | finWait2 hs => rw [hstate, hsyn] at hs; cases hs
          | finWait1 hs => rw [hstate, hsyn] at hs; cases hs
          | closeWait hs => rw [hstate, hsyn] at hs; cases hs
        · exact handleData_unattached hb (hstate ▸ hsyn) (hstate ▸ hest)
            (hin.trans hack.intake) hdata

/-! ## All steps -/

/-- Counting the segment in changes nothing on the receive side. -/
theorem IntakeStep.of_receive (h : IntakeStep (c.receive s) (.packet s now) c') :
    IntakeStep c (.packet s now) c' := by
  cases h with
  | idle hin hatt => exact .idle hin hatt
  | unattached hnot hin => exact .unattached hnot hin
  | data hatt hacc hstored hin => exact .data hatt hacc hstored hin
  | fin hatt hacc hfin hstored hin hdet => exact .fin hatt hacc hfin hstored hin hdet
  | reset hrst hdet =>
      exact .reset hrst
        ⟨hdet.attached, hdet.mapped, hdet.irs, hdet.stored, hdet.relayed, hdet.closed⟩

theorem step_intake {i : Input} (h : WellFormed c) (hlive : c.live = true)
    (hstep : Stepped c i c') : IntakeStep c i c' := by
  cases hstep with
  | packet htcp => exact (handleTcp_intake (h.receive _) hlive htcp).of_receive
  | timeout =>
      obtain ⟨hin, hatt⟩ := markForIfWrite_intake
        { c with
          tcb := windowUpdate
            { c.tcb with
              eTimeout := none, sndNxt := c.tcb.sndUna, rttMark := c.tcb.sndUna - 1,
              sndCwnd := 0 } }
      exact .idle hin hatt.mp
  | removed => exact .idle rfl fun hatt => absurd hatt.1 nofun
  | canRead _ _ _ hm hread _ =>
      cases hread with
      | nothing => exact .idle rfl id
      | closed hr hclose => exact .eof hm hr (closedBoth_detached hclose hm)
      | sent _ _ hsend hm' =>
          obtain ⟨hin, hatt⟩ := tcpSend_intake hsend
          refine .idle ?_ hatt.mp
          rw [← hin]
          obtain ⟨_, _, _, _, _, -, rfl⟩ := tcpSend_eq hsend
          simp [Conn.intake, hm, hm']
  | canWrite _ _ _ hm hwrite _ =>
      cases hwrite with
      | again hr hread hm' =>
          refine .write (x := []) hm hread (.inl ⟨hr, rfl⟩) ?_ id
          simp [Conn.intake, hm']
      | closed hr hread hclose =>
          obtain ⟨-, hmap, -⟩ := tcpRead_intake hread
          exact .writeFailed hm hr hread (closedBoth_detached hclose (hmap ▸ hm))
      | wrote hr hne hn hread hm' =>
          refine .write hm hread (.inr ⟨_, hr, hne, hn, rfl⟩) ?_ id
          simp [Conn.intake, hm']
  | didConnect _ _ _ hm hconn _ =>
      cases hconn with
      | accepted _ hm' =>
          obtain ⟨hin, hatt⟩ := tcpAccept_intake { c with map := _ }
          refine .idle (hin.trans ?_) hatt.mp
          simp [Conn.intake, hm, hm']
      | closed hok hclose =>
          subst hok
          exact .notConnected (closedBoth_detached hclose hm)
  | write _ _ _ hw _ =>
      obtain ⟨hin, hatt⟩ := wrote_intake hw
      exact .idle hin hatt.mp
  | accept =>
      obtain ⟨hin, hatt⟩ := tcpAccept_intake c
      exact .idle hin hatt.mp
  | send _ _ _ hsend =>
      obtain ⟨hin, hatt⟩ := tcpSend_intake hsend
      exact .idle hin hatt.mp
  | read hcb hread => exact .appRead hcb hread
  | close hcb => exact .appClose hcb (tcpClose_detached h hcb)
  | others => exact .idle rfl id

/-- A new connection has received nothing yet. -/
theorem start_intake {app : TcpCallback} (h : Start app c) : ∃ irs mapped closed,
    (closed = true → ¬c.Attached) ∧ c.intake =
      { inbuf := rbSet (rbNew 16384) (irs + 1)
        readSeq := irs + 1
        rcvNxt := irs + 1
        rcvWnd := BitVec.ofInt 32 (rbLeft (rbSet (rbNew 16384) (irs + 1)))
        irs, stored := [], relayed := [], closed, mapped } := by
  obtain ⟨self, isn, ev, syn, -, hopen⟩ := start_cases h
  cases hopen with
  | other => exact ⟨syn.seq, false, false, nofun, rfl⟩
  | accepted =>
      obtain ⟨hin, -⟩ := tcpAccept_intake
        { Conn.fresh self app isn ev syn with map := some _ }
      exact ⟨syn.seq, true, false, nofun, hin⟩
  | connecting => exact ⟨syn.seq, true, false, nofun, rfl⟩
  | failed _ hclose =>
      cases hclose with
      | reset => exact ⟨syn.seq, false, _, fun _ hatt => absurd hatt.1 nofun, rfl⟩
      | fin hstate => exact absurd rfl hstate

end Ptrtd
