import Ptrtd.Verification.Handshake.Accept
import Ptrtd.Verification.Send.Hostile

/-! # The send window

`snd_max` is set to a window beyond `snd_una` and stays behind when `snd_una` moves on.
Counted from `iss` it is `w` beyond an earlier position `b` of `snd_una`, and nothing is
sent further than a window from `b`. In `SYN_RECVD` every SYN/ACK takes a sequence number,
but each is asked for by `tcp_accept` or by a window that opens. -/

namespace Ptrtd

variable {a c c' : Conn} {i : Input} {s : Segment} {now : Timeval} {b w u n : ℕ}

/-- How many SYN/ACKs are scheduled or can still be asked for by `tcp_accept`. -/
def slack (c : Conn) : ℕ :=
  if c.tcb.state = .synRecvd then
    (if c.tcb.eTcbSend.isSome then 1 else 0) + (if c.trace.acceptCalled then 0 else 1)
  else 0

/-- `snd_una` is at position `u`, `snd_nxt` at `n`, and `snd_max` is `w` beyond `b`. -/
structure Windowed (c : Conn) (b w u n : ℕ) : Prop where
  una : c.tcb.sndUna.toNat = c.tcb.iss.toNat + u
  nxt : SeqNum.At c.tcb.iss c.tcb.sndNxt n
  top : SeqNum.At c.tcb.iss c.tcb.sndMax (b + w)
  base : b ≤ u
  le : u ≤ n
  sent : n ≤ c.trace.high
  wnd : w ≤ 65535
  near : c.trace.high + slack c ≤ b + 65537
  syn : c.tcb.state = .synRecvd → n = c.trace.high
  sndWnd : c.tcb.sndWnd.toNat ≤ 65535

theorem slack_le (c : Conn) : slack c ≤ 2 := by
  rw [slack]
  split
  · split <;> split <;> omega
  · omega

theorem slack_of_not_syn (h : c.tcb.state ≠ .synRecvd) : slack c = 0 := if_neg h

/-- The send window is what is left of `w` beyond `b`. -/
theorem Windowed.windowSize (h : Windowed c b w u n) :
    windowSize c.tcb = (b + w : ℤ) - n := by
  have hbase := h.base
  have hle := h.le
  have hsent := h.sent
  have hwnd := h.wnd
  have hnear := h.near
  rw [Ptrtd.windowSize, h.top.toInt_sub h.nxt (by push_cast; omega) (by push_cast; omega)]
  push_cast
  rfl

/-- The words are equal just when the positions are. -/
theorem Windowed.una_eq_iff (h : Windowed c b w u n) : c.tcb.sndUna = c.tcb.sndNxt ↔ n = u := by
  have hbase := h.base
  have hle := h.le
  have hsent := h.sent
  have hnear := h.near
  have hat : SeqNum.At c.tcb.iss c.tcb.sndUna u := SeqNum.at_of_toNat_eq h.una
  constructor
  · intro heq
    exact h.nxt.inj (heq ▸ hat) (by omega) (by omega)
  · rintro rfl
    exact hat.trans h.nxt.symm

theorem Windowed.of_eq (h : Windowed c b w u n) (hiss : c'.tcb.iss = c.tcb.iss)
    (huna : c'.tcb.sndUna = c.tcb.sndUna) (hnxt : c'.tcb.sndNxt = c.tcb.sndNxt)
    (hmax : c'.tcb.sndMax = c.tcb.sndMax) (hwnd : c'.tcb.sndWnd = c.tcb.sndWnd)
    (hhigh : c'.trace.high = c.trace.high)
    (hstate : c'.tcb.state = .synRecvd → c.tcb.state = .synRecvd)
    (hslack : slack c' ≤ slack c) : Windowed c' b w u n := by
  refine ⟨?_, ?_, ?_, h.base, h.le, ?_, h.wnd, ?_, fun hs => ?_, ?_⟩
  · rw [huna, hiss, h.una]
  · rw [hnxt, hiss]
    exact h.nxt
  · rw [hmax, hiss]
    exact h.top
  · rw [hhigh]
    exact h.sent
  · rw [hhigh]
    have := h.near
    omega
  · rw [hhigh]
    exact h.syn (hstate hs)
  · rw [hwnd]
    exact h.sndWnd

/-- Parts past the handshake. -/
theorem Windowed.of_past (h : Windowed c b w u n) (hiss : c'.tcb.iss = c.tcb.iss)
    (huna : c'.tcb.sndUna = c.tcb.sndUna) (hnxt : c'.tcb.sndNxt = c.tcb.sndNxt)
    (hmax : c'.tcb.sndMax = c.tcb.sndMax) (hwnd : c'.tcb.sndWnd = c.tcb.sndWnd)
    (hhigh : c'.trace.high = c.trace.high) (hstate : c'.tcb.state ≠ .synRecvd) :
    Windowed c' b w u n :=
  h.of_eq hiss huna hnxt hmax hwnd hhigh (fun hs => absurd hs hstate)
    (by rw [slack_of_not_syn hstate]; exact Nat.zero_le _)

/-! ## Segments -/

/-- Where an ACK number that was sent takes `snd_una` and `snd_nxt`. -/
theorem ack_positions {o : Outlet} (huna : o.una.toNat = o.iss.toNat + u)
    (hnxt : SeqNum.At o.iss o.nxt n) (hle : u ≤ n) (hsent : n ≤ o.high)
    (hspace : o.iss.toNat + o.high < 2 ^ 32)
    (hack : o.NewAck s → s.ack.toNat ≤ o.iss.toNat + o.high) :
    ∃ u' n', (o.ack s).una.toNat = o.iss.toNat + u' ∧ SeqNum.At o.iss (o.ack s).nxt n' ∧
      u ≤ u' ∧ u' ≤ n' ∧ n ≤ n' ∧ n' ≤ o.high := by
  by_cases hnew : o.NewAck s
  · rw [Outlet.ack, if_pos hnew]
    have hlt := BitVec.lt_def.mp hnew.2
    have hwithin := hack hnew
    have hword : s.ack.toNat = o.iss.toNat + (s.ack.toNat - o.iss.toNat) := by omega
    have hat : SeqNum.At o.iss s.ack (s.ack.toNat - o.iss.toNat) := SeqNum.at_of_toNat_eq hword
    have hnat : o.nxt.toNat = o.iss.toNat + n := hnxt.toNat_eq (by omega)
    by_cases hbeyond : s.ack > o.nxt
    · have hnat' := BitVec.lt_def.mp hbeyond
      refine ⟨_, _, hword, ?_, by omega, le_rfl, by omega, by omega⟩
      simpa [Outlet.advance, hbeyond] using hat
    · have hnat' := BitVec.le_def.mp (BitVec.not_lt.mp hbeyond)
      refine ⟨_, n, hword, ?_, by omega, by omega, le_rfl, hsent⟩
      simpa [Outlet.advance, hbeyond] using hnxt
  · rw [Outlet.ack, if_neg hnew]
    exact ⟨u, n, huna, hnxt, le_rfl, hle, le_rfl, hsent⟩

/-- The segment's window is taken over: the segment is neither a reset nor old, and the block
for ACK does not leave early. -/
def TakesWindow (c : Conn) (s : Segment) : Prop :=
  s.isRst = false ∧ ¬s.seq < c.tcb.rcvNxt ∧
    ¬(s.isAck = true ∧ (c.outlet.ack s).una = (c.outlet.ack s).nxt ∧
      (c.tcb.state = .closing ∨ c.tcb.state = .lastAck))

instance (c : Conn) (s : Segment) : Decidable (TakesWindow c s) :=
  inferInstanceAs (Decidable (_ ∧ _ ∧ _))

/-- `snd_max` and `snd_wnd` stay, or they are set from the window `wnd`. -/
def WindowKept (c c' : Conn) : Prop :=
  c'.tcb.sndMax = c.tcb.sndMax ∧ c'.tcb.sndWnd = c.tcb.sndWnd

def WindowSet (c' : Conn) (wnd : BitVec 16) : Prop :=
  c'.tcb.sndWnd = wnd.setWidth 32 ∧
    ∃ cwnd : Uint, cwnd.toNat ≤ wnd.toNat ∧ c'.tcb.sndMax = c'.tcb.sndUna + cwnd

theorem handleNewAck_window {ack : Uint} (h : handleNewAck c ack now = some c') :
    WindowKept c c' ∧ c'.tcb.state = c.tcb.state ∧ c'.tcb.rcvNxt = c.tcb.rcvNxt := by
  obtain ⟨m, ev, r, d, o, e, k, w, -, -, -, rfl⟩ := handleNewAck_eq h
  exact ⟨⟨rfl, rfl⟩, rfl, rfl⟩

theorem handleAllAcked_window {f : Flow} (h : handleAllAcked c now = some f) :
    WindowKept c f.conn ∧ f.conn.tcb.rcvNxt = c.tcb.rcvNxt := by
  cases handleAllAcked_effect h with
  | opened _ _ hchange =>
      obtain ⟨m, l, n, -, rfl⟩ := hchange
      exact ⟨⟨rfl, rfl⟩, rfl⟩
  | bothClosed =>
      obtain ⟨l, n, e, heq⟩ := enterTimeWait_eq c now
      rw [Flow.conn, heq]
      exact ⟨⟨rfl, rfl⟩, rfl⟩
  | deleted | finAcked | stillClosing | other => exact ⟨⟨rfl, rfl⟩, rfl⟩

/-- The block for ACK goes on in `CLOSING` and `LAST_ACK` only while something is in flight. -/
theorem handleAllAcked_next (h : handleAllAcked c now = some (.next c')) :
    c.tcb.state ≠ .closing ∧ c.tcb.state ≠ .lastAck := by
  generalize hf : Flow.next c' = f at h
  cases handleAllAcked_effect h with
  | opened hs => exact ⟨by rw [hs]; nofun, by rw [hs]; nofun⟩
  | finAcked hs => exact ⟨by rw [hs]; nofun, by rw [hs]; nofun⟩
  | other _ hlast hclosing => exact ⟨hclosing, hlast⟩
  | deleted | bothClosed | stillClosing => cases hf

theorem handleAck_window {f : Flow} (h : handleAck c s now = some f) :
    WindowKept c f.conn ∧ f.conn.tcb.rcvNxt = c.tcb.rcvNxt ∧
      ∀ d, f = .next d → ¬(s.isAck = true ∧ (c.outlet.ack s).una = (c.outlet.ack s).nxt ∧
        (c.tcb.state = .closing ∨ c.tcb.state = .lastAck)) := by
  rcases handleAck_cases h with ⟨hno, rfl⟩ | ⟨-, d, hnew, hall⟩
  · refine ⟨⟨rfl, rfl⟩, rfl, fun _ _ hs => ?_⟩
    rw [hs.1] at hno
    cases hno
  · obtain ⟨hd, hout⟩ : (WindowKept c d ∧ d.tcb.state = c.tcb.state ∧
        d.tcb.rcvNxt = c.tcb.rcvNxt) ∧ (s.isAck = true → c.outlet.ack s = d.outlet) := by
      rcases hnew with ⟨hlt, hnew⟩ | ⟨hnot, rfl⟩
      · refine ⟨handleNewAck_window hnew, fun hack => ?_⟩
        rw [handleNewAck_outlet hnew]
        exact if_pos ⟨hack, hlt⟩
      · exact ⟨⟨⟨rfl, rfl⟩, rfl, rfl⟩, fun _ => if_neg fun hs => hnot hs.2⟩
    obtain ⟨hkept, hstate, hnxt⟩ := hd
    rcases hall with ⟨heq, hall⟩ | ⟨hne, rfl⟩
    · obtain ⟨hkept', hnxt'⟩ := handleAllAcked_window hall
      refine ⟨⟨hkept'.1.trans hkept.1, hkept'.2.trans hkept.2⟩, hnxt'.trans hnxt, ?_⟩
      rintro x rfl ⟨-, -, hs⟩
      obtain ⟨hclosing, hlast⟩ := handleAllAcked_next hall
      rw [hstate] at hclosing hlast
      exact hs.elim hclosing hlast
    · refine ⟨hkept, hnxt, ?_⟩
      rintro _ ⟨⟩ ⟨hack, hs, -⟩
      rw [hout hack] at hs
      exact hne hs

theorem updatedCwnd_toNat_le (t : Tcb) : (updatedCwnd t).toNat ≤ t.sndWnd.toNat :=
  BitVec.le_def.mp (updatedCwnd_le t)

theorem handleWindow_set (c : Conn) (s : Segment) : WindowSet (handleWindow c s) s.wnd := by
  obtain ⟨l, n, e, heq⟩ := handleWindow_eq c s
  rw [heq]
  refine ⟨rfl, updatedCwnd { c.tcb with sndWnd := s.wnd.setWidth 32 }, ?_, rfl⟩
  refine (updatedCwnd_toNat_le _).trans ?_
  rw [BitVec.toNat_setWidth]
  exact Nat.mod_le _ _

theorem handleData_window (h : handleData c s now = some c') :
    WindowKept c c' ∧ c'.tcb.sndUna = c.tcb.sndUna := by
  cases handleData_effect h with
  | ignored => exact ⟨⟨rfl, rfl⟩, rfl⟩
  | data _ hrecv _ =>
      obtain ⟨-, m, ev, e, r, w, x, -, -, -, rfl⟩ := tcpRecvData_eq hrecv
      exact ⟨⟨rfl, rfl⟩, rfl⟩
  | finWait2 _ hrecv =>
      obtain ⟨-, m, ev, e, r, w, x, -, -, -, rfl⟩ := tcpRecvData_eq hrecv
      exact ⟨⟨rfl, rfl⟩, rfl⟩
  | finWait1 _ hrecv =>
      obtain ⟨-, m, ev, e, r, w, x, -, -, -, rfl⟩ := tcpRecvData_eq hrecv
      exact ⟨⟨rfl, rfl⟩, rfl⟩
  | closeWait _ _ hrecv hclose =>
      obtain ⟨-, m, ev, e, r, w, x, -, -, -, rfl⟩ := tcpRecvData_eq hrecv
      obtain ⟨m, ev, e, b, -, -, -, -, rfl⟩ := tcpRemoteClose_eq rfl hclose
      exact ⟨⟨rfl, rfl⟩, rfl⟩

theorem handleTcp_window (h : handleTcp c s now = some c') :
    WindowKept c c' ∨ TakesWindow c s ∧ WindowSet c' s.wnd := by
  rcases handleTcp_cases h with ⟨-, hrst⟩ | ⟨-, hdone⟩ | ⟨hrst, d, hnext, hrest⟩
  · obtain ⟨m, ev, b, -, -, rfl⟩ := handleRst_eq hrst
    exact .inl ⟨rfl, rfl⟩
  · exact .inl (handleAck_window hdone).1
  · obtain ⟨hkept, hnxt, hearly⟩ := handleAck_window hnext
    rcases hrest with ⟨-, rfl⟩ | ⟨hseq, hdata⟩
    · obtain ⟨l, n, e, la, heq⟩ := handleOld_eq d
      rw [heq]
      exact .inl hkept
    · obtain ⟨hwnd, cwnd, hle, hmax⟩ := handleWindow_set d s
      obtain ⟨hkept', huna⟩ := handleData_window hdata
      refine .inr ⟨⟨hrst, ?_, hearly d rfl⟩, hkept'.2.trans hwnd, cwnd, hle, ?_⟩
      · exact hnxt ▸ hseq
      · rw [hkept'.1, huna, hmax]


/-! ## Runs with ACK numbers that were sent -/

/-- The sequence numbers sent so far have not wrapped. -/
def InSpace (c : Conn) : Prop := c.tcb.iss.toNat + c.trace.high < 2 ^ 32

instance (c : Conn) : Decidable (InSpace c) := inferInstanceAs (Decidable (_ < _))

/-- No ACK number lies beyond the highest sequence number sent, which does not wrap. -/
def SentOnly (c : Conn) : Input → Prop
  | .packet s _ => InSpace c ∧ AckWithin c s
  | _ => InSpace c

instance (c : Conn) : (i : Input) → Decidable (SentOnly c i)
  | .packet s _ => inferInstanceAs (Decidable (InSpace c ∧ AckWithin c s))
  | .timeEvent _ | .fdEvent _ _ | .alwaysEvent _ _ | .call _ | .others _ =>
      inferInstanceAs (Decidable (InSpace c))

theorem SentOnly.inSpace (h : SentOnly c i) : InSpace c := by
  cases i with
  | packet s now => exact h.1
  | timeEvent | fdEvent | alwaysEvent | call | others => exact h

theorem ack_receive (c : Conn) (s : Segment) :
    ((c.outlet.receive s).ack s).una = (c.outlet.ack s).una ∧
      ((c.outlet.receive s).ack s).nxt = (c.outlet.ack s).nxt := by
  rw [Outlet.receive_ack]
  exact ⟨rfl, rfl⟩

theorem takesWindow_receive : TakesWindow (c.receive s) s ↔ TakesWindow c s := by
  have hout : (c.receive s).outlet = c.outlet.receive s := rfl
  rw [TakesWindow, TakesWindow, hout, (ack_receive c s).1, (ack_receive c s).2]
  rfl

/-- A window that is not yet known to be near: in `SYN_RECVD` the write event may be newly
scheduled if the window is open. -/
theorem Windowed.of_opened {m : ℕ} (huna : c.tcb.sndUna.toNat = c.tcb.iss.toNat + u)
    (hnxt : SeqNum.At c.tcb.iss c.tcb.sndNxt n)
    (hmax : SeqNum.At c.tcb.iss c.tcb.sndMax (b + w)) (hbase : b ≤ u) (hle : u ≤ n)
    (hsent : n ≤ c.trace.high) (hwnd : w ≤ 65535) (hsnd : c.tcb.sndWnd.toNat ≤ 65535)
    (hsyn : c.tcb.state = .synRecvd → n = c.trace.high) (hnear : c.trace.high + m ≤ b + 65537)
    (hslack : c.tcb.state = .synRecvd → slack c ≤ m ∨ Ptrtd.windowSize c.tcb > 0) :
    Windowed c b w u n := by
  refine ⟨huna, hnxt, hmax, hbase, hle, hsent, hwnd, ?_, hsyn, hsnd⟩
  by_cases hstate : c.tcb.state = .synRecvd
  · rcases hslack hstate with hold | hopen
    · omega
    · rw [Ptrtd.windowSize, hmax.toInt_sub hnxt (by push_cast; omega) (by push_cast; omega)]
        at hopen
      have heq := hsyn hstate
      have hle2 := slack_le c
      push_cast at hopen
      omega
  · rw [slack_of_not_syn hstate]
    omega

/-- The timer that runs is the retransmission timer. -/
def RunsTimeout (c : Conn) (addr : ℕ) : Prop :=
  ∃ e ∈ c.ev.timeEventList, e.addr = addr ∧ e.func = .tcpTimeout

instance (c : Conn) (addr : ℕ) : Decidable (RunsTimeout c addr) :=
  inferInstanceAs (Decidable (∃ e ∈ _, _))

/-- What sets a window of at most `w` from `snd_una` at position `b` on: a segment whose window
is taken over, or a timeout. -/
def Opens (c : Conn) : Input → ℕ → ℕ → Prop
  | .packet s _, b, w =>
      TakesWindow c s ∧ (c.outlet.ack s).una.toNat = c.tcb.iss.toNat + b ∧ w ≤ s.wnd.toNat
  | .timeEvent addr, b, w => RunsTimeout c addr ∧ c.tcb.sndUna.toNat = c.tcb.iss.toNat + b ∧
      w ≤ min c.tcb.mss.toNat c.tcb.sndWnd.toNat
  | _, _, _ => False

theorem Windowed.packet (h : Windowed c b w u n) (hspace : InSpace c) (hack : AckWithin c s)
    (htcp : handleTcp (c.receive s) s now = some c') (hlive : c'.live = true) :
    ∃ b' w' u' n', Windowed c' b' w' u' n' ∧
      (b' = b ∧ w' = w ∨ Opens c (.packet s now) b' w') := by
  rcases handleTcp_arrived htcp with ⟨-, heq⟩ | ⟨hrst, o, hsettled, hmoved⟩
  · have hdead : c'.live = false := congrArg Outlet.live heq
    rw [hdead] at hlive
    cases hlive
  · have hwithin : (c.outlet.receive s).NewAck s →
        s.ack.toNat ≤ (c.outlet.receive s).iss.toNat + (c.outlet.receive s).high :=
      fun hnew => hack hrst hnew.1
    obtain ⟨u', n', huna, hnxt, huu, hun, hnn, hnh⟩ :=
      ack_positions (o := c.outlet.receive s) h.una h.nxt h.le h.sent hspace hwithin
    obtain ⟨hiss, huna', hnxt', hhigh⟩ : c'.tcb.iss = c.tcb.iss ∧
        c'.tcb.sndUna = ((c.outlet.receive s).ack s).una ∧
        c'.tcb.sndNxt = ((c.outlet.receive s).ack s).nxt ∧ c'.trace.high = c.trace.high := by
      obtain ⟨una, nxt, buf, hout⟩ := Outlet.ack_eq (c.outlet.receive s) s
      rw [hout] at hsettled ⊢
      obtain ⟨l, st, rfl⟩ := hsettled.eq
      obtain ⟨st', heq⟩ := hmoved.eq
      exact ⟨congrArg Outlet.iss heq, congrArg Outlet.una heq, congrArg Outlet.nxt heq,
        congrArg Outlet.high heq⟩
    have huna : c'.tcb.sndUna.toNat = c'.tcb.iss.toNat + u' := by
      rw [huna', hiss]
      exact huna
    have hnxt : SeqNum.At c'.tcb.iss c'.tcb.sndNxt n' := by
      rw [hnxt', hiss]
      exact hnxt
    have hnh : n' ≤ c'.trace.high := by
      rw [hhigh]
      exact hnh
    have hnear := h.near
    have hwnd := h.wnd
    have hbase := h.base
    have hopening : c'.tcb.state = .synRecvd → n' = c'.trace.high ∧
        (slack c' ≤ slack c ∨ Ptrtd.windowSize c'.tcb > 0) := by
      intro hs
      obtain ⟨hopen, hpending⟩ := handleTcp_opening htcp hs hlive
      have hn := h.syn hopen.state
      have hn' : n = c.trace.high := hn
      refine ⟨by omega, ?_⟩
      have haccept : c'.trace.acceptCalled = c.trace.acceptCalled := hopen.accept
      have hstate : c.tcb.state = .synRecvd := hopen.state
      rw [slack, slack, if_pos hs, if_pos hstate, haccept]
      by_cases hp : c'.tcb.eTcbSend.isSome = true
      · rcases hpending hp with hold | hopen
        · have hold' : c.tcb.eTcbSend.isSome = true := hold
          exact .inl (by simp [hp, hold'])
        · exact .inr hopen
      · exact .inl (by simp [hp])
    rcases handleTcp_window htcp with ⟨hmax, hsnd⟩ | ⟨htakes, hsnd, cwnd, hcwnd, hmax⟩
    · refine ⟨b, w, u', n', .of_opened huna hnxt ?_ (by omega) hun hnh hwnd ?_
        (fun hs => (hopening hs).1) (m := slack c) (by omega) fun hs => (hopening hs).2,
        .inl ⟨rfl, rfl⟩⟩
      · rw [hmax, hiss]
        exact h.top
      · rw [hsnd]
        exact h.sndWnd
    · have hbound : s.wnd.toNat < 2 ^ 16 := s.wnd.isLt
      refine ⟨u', cwnd.toNat, u', n', .of_opened huna hnxt ?_ le_rfl hun hnh (by omega) ?_
        (fun hs => (hopening hs).1) (m := slack c) (by omega) fun hs => (hopening hs).2,
        .inr ⟨takesWindow_receive.mp htakes, ?_, hcwnd⟩⟩
      · rw [hmax]
        have hat := (SeqNum.at_of_toNat_eq huna).add cwnd.toNat
        rwa [BitVec.ofNat_toNat, BitVec.setWidth_eq] at hat
      · rw [hsnd, BitVec.toNat_setWidth]
        have := Nat.mod_le s.wnd.toNat (2 ^ 32)
        omega
      · rw [← (ack_receive c s).1, ← huna', huna, hiss]

/-! ## The other steps -/

theorem Windowed.timeout (h : Windowed c b w u n) (hpast : c.tcb.state ≠ .synRecvd) (addr : ℕ) :
    ∃ w', w' ≤ min c.tcb.mss.toNat c.tcb.sndWnd.toNat ∧
      Windowed { tcpTimeout c with ev := removeTimeEvent (tcpTimeout c).ev addr } u w' u u := by
  obtain ⟨l, m, e, cwnd, -, hmss, hwnd, heq⟩ := tcpTimeout_eq c
  have hle : cwnd.toNat ≤ min c.tcb.mss.toNat c.tcb.sndWnd.toNat :=
    le_min (BitVec.le_def.mp hmss) (BitVec.le_def.mp hwnd)
  have hsnd := h.sndWnd
  have hnear := h.near
  have hbase := h.base
  have hun := h.le
  have hsent := h.sent
  have hat : SeqNum.At c.tcb.iss c.tcb.sndUna u := SeqNum.at_of_toNat_eq h.una
  have hmax : SeqNum.At c.tcb.iss (c.tcb.sndUna + cwnd) (u + cwnd.toNat) := by
    have hadd := hat.add cwnd.toNat
    rwa [BitVec.ofNat_toNat, BitVec.setWidth_eq] at hadd
  refine ⟨cwnd.toNat, hle, ?_⟩
  rw [heq]
  refine .of_opened (m := 0) h.una hat hmax le_rfl le_rfl ?_ ?_ hsnd (fun hs => absurd hs hpast) ?_
    fun hs => absurd hs hpast
  · change u ≤ c.trace.high
    omega
  · omega
  · change c.trace.high + 0 ≤ u + 65537
    omega

/-- What `tcp_send_and_ack` sends fits into the window. -/
theorem sendData_length_le {t : Tcb} {d : List Uchar} (h : sendData t = some d) :
    d = [] ∨ (d.length : ℤ) ≤ Ptrtd.windowSize t := by
  rw [sendData] at h
  dsimp only at h
  split at h
  · next hpos =>
      right
      refine (Buffer.rbRead_length_le ?_ h).trans ?_
      · split_ifs <;> omega
      · split_ifs <;> omega
  · cases h
    exact .inl rfl

theorem finDue_lt {t : Tcb} {len : ℕ} (h : finDue t len = true) : (len : ℤ) < windowSize t := by
  simp only [finDue, Bool.and_eq_true, decide_eq_true_eq] at h
  omega

/-- A segment that is emitted ends within the window. -/
theorem Windowed.segment_le (h : Windowed c b w u n) {d : List Uchar}
    (hdata : sendData c.tcb = some d) :
    n + (d.length + (if finDue c.tcb d.length then 1 else 0)) ≤ max n (b + w) := by
  have hsize := h.windowSize
  split
  · next hfin =>
      have hlt := finDue_lt hfin
      omega
  · rcases sendData_length_le hdata with rfl | hle
    · simp
    · omega

/-- A segment that ends at `n + len` has been sent. -/
theorem Windowed.sent_to {len : ℕ} (h : Windowed c b w u n) (hiss : c'.tcb.iss = c.tcb.iss)
    (huna : c'.tcb.sndUna = c.tcb.sndUna)
    (hnxt : c'.tcb.sndNxt = c.tcb.sndNxt + BitVec.ofNat 32 len)
    (hmax : c'.tcb.sndMax = c.tcb.sndMax) (hwnd : c'.tcb.sndWnd = c.tcb.sndWnd)
    (hhigh : c'.trace.high =
      SeqNum.reach c.tcb.iss c.trace.high (c.tcb.sndNxt + BitVec.ofNat 32 len))
    (hlen : len ≤ 65535) (hsyn : c'.tcb.state = .synRecvd → len = 1 ∧ n = c.trace.high)
    (hnear : max c.trace.high (n + len) + slack c' ≤ b + 65537) : Windowed c' b w u (n + len) := by
  have hbase := h.base
  have hle := h.le
  have hsent := h.sent
  have hnear' := h.near
  have hat := h.nxt.add len
  have hreach : c'.trace.high = max c.trace.high (n + len) :=
    hhigh.trans (SeqNum.reach_eq_max hat (by push_cast; omega) (by push_cast; omega))
  refine ⟨?_, ?_, ?_, hbase, by omega, by omega, h.wnd, by omega, fun hs => ?_, ?_⟩
  · rw [huna, hiss, h.una]
  · rw [hnxt, hiss]
    exact hat
  · rw [hmax, hiss]
    exact h.top
  · have := hsyn hs
    omega
  · rw [hwnd]
    exact h.sndWnd

theorem Windowed.wrote {again : Bool} (h : Windowed c b w u n)
    (hpend : c.tcb.eTcbSend.isSome = true) (hw : Wrote c now a again) :
    ∃ n', n ≤ n' ∧ Windowed a b w u n' := by
  have hbase := h.base
  have hwnd := h.wnd
  have hnear := h.near
  have hle := h.le
  have hsent := h.sent
  cases hw with
  | syn hsyn =>
      have hn := h.syn hsyn
      have hhigh : (c.trace.send c.tcb.iss (makeTcpHdr c.tcb [] 0x12).2).high =
          SeqNum.reach c.tcb.iss c.trace.high (c.tcb.sndNxt + BitVec.ofNat 32 1) :=
        congrArg (fun k => SeqNum.reach c.tcb.iss c.trace.high (c.tcb.sndNxt + BitVec.ofNat 32 k))
          (Outlet.span_of_synAck rfl rfl)
      refine ⟨n + 1, by omega,
        h.sent_to rfl rfl rfl rfl rfl hhigh (by omega) (fun _ => ⟨rfl, hn⟩) ?_⟩
      rw [slack, if_pos hsyn, if_pos hpend] at hnear
      have haccept : (c.trace.send c.tcb.iss (makeTcpHdr c.tcb [] 0x12).2).acceptCalled =
          c.trace.acceptCalled := rfl
      rw [slack, if_pos hsyn, haccept]
      simp only [Option.isSome_none, Bool.false_eq_true, if_false]
      omega
  | nothing hpast => exact ⟨n, le_rfl, h.of_past rfl rfl rfl rfl rfl rfl hpast⟩
  | @segment d x e hpast hdata hx _ =>
      have hend := h.segment_le hdata
      obtain ⟨l, m, e', k, r, q, v, la, heq⟩ := emitSegment_eq c d (finDue c.tcb d.length) now
      obtain ⟨len, hlen⟩ : ∃ len, len = d.length + (if finDue c.tcb d.length then 1 else 0) :=
        ⟨_, rfl⟩
      rw [← hlen] at hend
      have hx' : Windowed x b w u (n + len) := by
        refine h.sent_to ?_ ?_ ?_ ?_ ?_ ?_ (by omega) ?_ ?_
        · rw [hx, heq]
        · rw [hx, heq]
        · rw [hx, heq, hlen]
          exact Outlet.advanceNxt_eq _ _ _
        · rw [hx, heq]
        · rw [hx, heq]
        · rw [hx, heq, hlen]
          exact congrArg (fun k => SeqNum.reach c.tcb.iss c.trace.high
            (c.tcb.sndNxt + BitVec.ofNat 32 k)) (Outlet.span_of_sendFlags rfl)
        · rw [hx, heq]
          exact fun hs => absurd hs hpast
        · have hpast' : x.tcb.state ≠ .synRecvd := by
            rw [hx, heq]
            exact hpast
          rw [slack_of_not_syn hpast']
          omega
      have hpast' : x.tcb.state ≠ .synRecvd := by
        rw [hx, heq]
        exact hpast
      exact ⟨n + len, by omega, hx'.of_past rfl rfl rfl rfl rfl rfl hpast'⟩

/-! ## All steps -/

/-- The events of a connected socket come only after the handshake. -/
theorem WellFormed.reader_state {e : Event} (hwf : WellFormed c) (hlive : c.live = true)
    (he : e ∈ c.ev.fdEventList) (hown : c.owns e = true)
    (hfunc : e.func = .handleFdCanRead ∨ e.func = .handleFdCanWrite) :
    c.tcb.state ≠ .synRecvd := by
  intro hsyn
  have hconn := hwf.synFd hlive hsyn e he hown
  rcases hfunc with hf | hf <;> exact absurd (hconn.symm.trans hf) nofun

theorem Windowed.closeBoth {m : Option TcpMap} (h : Windowed c b w u n)
    (hclose : ClosedBoth { c with map := m } a) (hlive : a.live = true) : Windowed a b w u n := by
  cases hclose with
  | reset => cases hlive
  | fin hpast =>
      refine h.of_past rfl rfl rfl rfl rfl rfl ?_
      dsimp only
      split <;> nofun

theorem Windowed.tcpAccept (h : Windowed c b w u n)
    (hfirst : c.tcb.state = .synRecvd → c.trace.acceptCalled = false) :
    Windowed (tcpAccept c) b w u n := by
  obtain ⟨l, m, e, -, heq⟩ := tcpAccept_eq c
  rw [heq]
  refine h.of_eq rfl rfl rfl rfl rfl rfl id ?_
  rw [slack, slack]
  dsimp only
  split
  · next hsyn =>
      have hone : (if e.isSome = true then 1 else 0) ≤ 1 := by split <;> omega
      rw [hfirst hsyn]
      simp only [if_true, Bool.false_eq_true, if_false]
      omega
  · exact le_rfl

theorem Windowed.tcpSend {d : List Uchar} (h : Windowed c b w u n)
    (hpast : c.tcb.state ≠ .synRecvd) (hsend : tcpSend c d = some c') : Windowed c' b w u n := by
  obtain ⟨r, k, l, m, e, -, rfl⟩ := tcpSend_eq hsend
  exact h.of_past rfl rfl rfl rfl rfl rfl hpast

/-- Reading from a buffer that is not full leaves the schedule and `last_acked` alone. -/
theorem tcpRead_open {len : ℤ} {d : List Uchar} (hopen : rbLeft c.tcb.inbuf ≠ 0)
    (hread : tcpRead c len = some (c', d)) : c'.ev = c.ev ∧ c'.tcb.eTcbSend = c.tcb.eTcbSend ∧
      c'.tcb.lastAcked = c.tcb.lastAcked := by
  rw [tcpRead, Option.map_eq_some_iff] at hread
  obtain ⟨x, -, hread⟩ := hread
  dsimp only at hread
  rw [if_neg hopen] at hread
  obtain ⟨rfl, rfl⟩ := Prod.mk.inj hread
  exact ⟨rfl, rfl, rfl⟩

theorem WellFormed.inbuf_open (hwf : WellFormed c) (hsyn : c.tcb.state = .synRecvd) :
    rbLeft c.tcb.inbuf ≠ 0 := by
  have hsize := hwf.inSize
  have hused := hwf.synIn hsyn
  rw [rbLeft]
  omega

theorem Windowed.tcpRead {len : ℤ} {d : List Uchar} (h : Windowed c b w u n) (hwf : WellFormed c)
    (hread : tcpRead c len = some (c', d)) : Windowed c' b w u n := by
  by_cases hsyn : c.tcb.state = .synRecvd
  · have he := (tcpRead_open (hwf.inbuf_open hsyn) hread).2.1
    obtain ⟨l, m, e, la, -, rfl⟩ := tcpRead_eq hread
    refine h.of_eq rfl rfl rfl rfl rfl rfl id ?_
    rw [slack, slack, he]
  · obtain ⟨l, m, e, la, -, rfl⟩ := tcpRead_eq hread
    exact h.of_past rfl rfl rfl rfl rfl rfl hsyn

/-- A step keeps the window where it is, or opens one from `snd_una` on. -/
theorem Windowed.stepped (h : Windowed c b w u n) (hwf : WellFormed c) (hqueue : Queued c)
    (honce : AcceptOnce c) (hok : SentOnly c i) (hlive : c.live = true) (hlive' : c'.live = true)
    (hstep : Stepped c i c') : ∃ b' w' u' n', Windowed c' b' w' u' n' ∧
      (b' = b ∧ w' = w ∨ Opens c i b' w') := by
  have hsame : Windowed c' b w u n → ∃ b' w' u' n', Windowed c' b' w' u' n' ∧
      (b' = b ∧ w' = w ∨ Opens c i b' w') := fun h' => ⟨b, w, u, n, h', .inl ⟨rfl, rfl⟩⟩
  cases hstep with
  | packet htcp =>
      obtain ⟨b', w', u', n', h', hset⟩ := h.packet hok.1 hok.2 htcp hlive'
      exact ⟨b', w', u', n', h', hset⟩
  | @timeout e he hown hfunc =>
      obtain ⟨w', hle, h'⟩ := h.timeout (hwf.timer_state hlive he hown) e.addr
      exact ⟨u, w', u, u, h', .inr ⟨⟨e, he, rfl, hfunc⟩, h.una, hle⟩⟩
  | removed => cases hlive'
  | canRead he hown hfunc _ hread _ =>
      apply hsame
      cases hread with
      | nothing => exact h.of_eq rfl rfl rfl rfl rfl rfl id le_rfl
      | closed _ hclose =>
          exact (h.closeBoth hclose hlive').of_eq rfl rfl rfl rfl rfl rfl id le_rfl
      | sent _ _ hsend _ =>
          have hpast := hwf.reader_state hlive he hown (.inl hfunc)
          exact (h.tcpSend hpast hsend).of_eq rfl rfl rfl rfl rfl rfl id le_rfl
  | canWrite _ _ _ _ hwrite _ =>
      apply hsame
      cases hwrite with
      | again _ hread _ => exact (h.tcpRead hwf hread).of_eq rfl rfl rfl rfl rfl rfl id le_rfl
      | closed _ hread hclose =>
          exact ((h.tcpRead hwf hread).closeBoth hclose hlive').of_eq rfl rfl rfl rfl rfl rfl id
            le_rfl
      | wrote _ _ _ hread _ => exact (h.tcpRead hwf hread).of_eq rfl rfl rfl rfl rfl rfl id le_rfl
  | didConnect he hown _ hm hconn _ =>
      apply hsame
      cases hconn with
      | @accepted m =>
          have hfirst : c.tcb.state = .synRecvd → c.trace.acceptCalled = false :=
            fun hsyn => honce.not_accepted hlive hsyn he hown
          have hset : Windowed { c with map := m } b w u n :=
            h.of_eq rfl rfl rfl rfl rfl rfl id le_rfl
          exact (hset.tcpAccept hfirst).of_eq rfl rfl rfl rfl rfl rfl id le_rfl
      | closed _ hclose =>
          exact (h.closeBoth hclose hlive').of_eq rfl rfl rfl rfl rfl rfl id le_rfl
  | write he hown _ hw _ =>
      have hpend : c.tcb.eTcbSend.isSome = true := by
        rw [hqueue.pending hlive he hown]
        rfl
      obtain ⟨n', -, h'⟩ := h.wrote hpend hw
      exact ⟨b, w, u, n', h'.of_eq rfl rfl rfl rfl rfl rfl id le_rfl, .inl ⟨rfl, rfl⟩⟩
  | accept _ _ hfirst => exact hsame (h.tcpAccept fun _ => hfirst)
  | send _ hest _ hsend => exact hsame (h.tcpSend (by rw [hest]; nofun) hsend)
  | read _ hread => exact hsame (h.tcpRead hwf hread)
  | @close hard hcb =>
      have hlater := (Later.tcpClose c hard).state
      generalize hclosed : Ptrtd.tcpClose c hard = a at hlive' hlater hsame ⊢
      cases tcpClose_cases hclosed with
      | reset => cases hlive'
      | fin hsyn => exact hsame (h.of_past rfl rfl rfl rfl rfl rfl (hlater hsyn))
  | others => exact hsame (h.of_eq rfl rfl rfl rfl rfl rfl id le_rfl)

/-! ## Runs -/

theorem Windowed.fresh (self : ℕ) (app : TcpCallback) (isn : Uint) (ev : EventLists)
    (syn : Segment) : ∃ w, w ≤ syn.wnd.toNat ∧ Windowed (.fresh self app isn ev syn) 0 w 0 0 := by
  obtain ⟨t, ht⟩ : ∃ t, newTcb app isn syn = windowUpdate t ∧ t.sndUna = nextIsn isn ∧
      t.sndWnd = syn.wnd.setWidth 32 := ⟨_, rfl, rfl, rfl⟩
  obtain ⟨ht, huna, hwnd⟩ := ht
  have hle : (updatedCwnd t).toNat ≤ syn.wnd.toNat := by
    refine (updatedCwnd_toNat_le t).trans ?_
    rw [hwnd, BitVec.toNat_setWidth]
    exact Nat.mod_le _ _
  have hbound : syn.wnd.toNat < 2 ^ 16 := syn.wnd.isLt
  have hmax : (newTcb app isn syn).sndMax = nextIsn isn + updatedCwnd t := by
    rw [ht, windowUpdate, huna]
  have hat : SeqNum.At (nextIsn isn) (nextIsn isn + updatedCwnd t) (0 + (updatedCwnd t).toNat) := by
    have hzero : SeqNum.At (nextIsn isn) (nextIsn isn) 0 := SeqNum.at_zero
    have hadd := hzero.add (updatedCwnd t).toNat
    rwa [BitVec.ofNat_toNat, BitVec.setWidth_eq] at hadd
  refine ⟨(updatedCwnd t).toNat, hle, (Nat.add_zero _).symm, SeqNum.at_zero, ?_, le_rfl, le_rfl,
    le_rfl, by omega, ?_, fun _ => rfl, ?_⟩
  · exact hmax ▸ hat
  · have hslack := slack_le (.fresh self app isn ev syn)
    change 0 + slack (.fresh self app isn ev syn) ≤ 0 + 65537
    omega
  · change (syn.wnd.setWidth 32).toNat ≤ 65535
    rw [BitVec.toNat_setWidth]
    have := Nat.mod_le syn.wnd.toNat (2 ^ 32)
    omega

/-- The window of a new connection is that of its SYN. -/
theorem Windowed.of_start {app : TcpCallback} (h : Start app c) (hlive : c.live = true) :
    ∃ w syn, w ≤ syn.wnd.toNat ∧ syn.flags = 0x2 ∧ c.trace.received = [syn] ∧
      Windowed c 0 w 0 0 := by
  obtain ⟨self, isn, ev, syn, res, -, hsyn⟩ := h
  rw [handleSyn] at hsyn
  split at hsyn
  · next hflags =>
      obtain ⟨w, hle, hw⟩ := Windowed.fresh self app isn ev syn
      have hclosed : ∀ m : TcpMap,
          Ptrtd.closeBoth { Conn.fresh self app isn ev syn with map := some m } ≠ some c := by
        intro m hclose
        cases closeBoth_effect hclose with
        | reset => cases hlive
        | fin hpast => exact absurd rfl hpast
      refine ⟨w, syn, hle, hflags, ?_⟩
      cases app with
      | tcpMapCb =>
          cases res with
          | noSocket => exact absurd hsyn (hclosed _)
          | failed fd => exact absurd hsyn (hclosed _)
          | connected fd =>
              cases hsyn
              have hset : Windowed
                  { Conn.fresh self .tcpMapCb isn ev syn with map := some ⟨fd, none, none⟩ }
                  0 w 0 0 := hw.of_eq rfl rfl rfl rfl rfl rfl id le_rfl
              refine ⟨?_, hset.tcpAccept fun _ => rfl⟩
              obtain ⟨l, m, e, -, heq⟩ := tcpAccept_eq
                { Conn.fresh self .tcpMapCb isn ev syn with map := some ⟨fd, none, none⟩ }
              exact congrArg (fun c => c.trace.received) heq
          | inProgress fd =>
              cases hsyn
              exact ⟨rfl, hw.of_eq rfl rfl rfl rfl rfl rfl id le_rfl⟩
      | otherCb =>
          cases hsyn
          exact ⟨rfl, hw⟩
  · cases hsyn

end Ptrtd
