import Ptrtd.Verification.Send.Invariant

/-! # A handshake of many SYN/ACKs

A peer that keeps the window at three and acknowledges one SYN/ACK at a time makes the block
send another one each time, with the next sequence number. -/

namespace Ptrtd

open SeqNum

variable {isn : Uint} {j k : ℕ} {received sent : List Segment}

/-- `SYN_RECVD` after `k` acknowledged SYN/ACKs, with three more in flight. -/
def synAcks (isn : Uint) (k : ℕ) (received sent : List Segment) : Conn :=
  { self := 0
    tcb :=
      { newTcb .tcpMapCb isn (clientSyn 3) with
        sndUna := nextIsn isn + BitVec.ofNat 32 k
        sndNxt := nextIsn isn + BitVec.ofNat 32 (k + 3)
        sndMax := nextIsn isn + BitVec.ofNat 32 (k + 3)
        lastAcked := 1001 }
    live := true
    map := some ⟨5, none, none⟩
    ev := ⟨[], [], [], k + 3⟩
    trace :=
      { Trace.start (clientSyn 3) with received, sent, high := k + 3, acceptCalled := true } }

/-- The segment that acknowledges the first `j` SYN/ACKs. -/
def synAcksAck (isn : Uint) (j : ℕ) : Segment :=
  ⟨1001, nextIsn isn + BitVec.ofNat 32 j, 0x10, 3, []⟩

/-- One more has been acknowledged, and the next SYN/ACK is scheduled. -/
def synAcksAcked (isn : Uint) (k : ℕ) (received sent : List Segment) : Conn :=
  { synAcks isn k received sent with
    tcb :=
      { (synAcks isn k received sent).tcb with
        sndUna := nextIsn isn + BitVec.ofNat 32 (k + 1)
        sndMax := nextIsn isn + BitVec.ofNat 32 (k + 1) + 3
        eTcbSend := some (k + 3) }
    ev := ⟨[], [], [⟨k + 3, .doTcbWrite, .tcb 0, .always⟩], k + 4⟩ }

/-- All have been acknowledged. -/
def synAcksOpened (isn : Uint) (k : ℕ) (received sent : List Segment) (e : Option ℕ)
    (l : List Event) : Conn :=
  { synAcks isn k received sent with
    tcb :=
      { (synAcks isn k received sent).tcb with
        state := .established
        sndUna := nextIsn isn + BitVec.ofNat 32 (k + 3)
        sndMax := nextIsn isn + BitVec.ofNat 32 (k + 3) + 3
        eTcbSend := e }
    map := some ⟨5, some (k + 3), none⟩
    ev := ⟨[], [⟨k + 3, .handleFdCanRead, .tcpMap 0, .fd 5 false⟩], l, k + 5⟩ }

theorem toNat_synAcks (isn : Uint) (k : ℕ) (hk : (nextIsn isn).toNat + k < 2 ^ 32) :
    (nextIsn isn + BitVec.ofNat 32 k).toNat = (nextIsn isn).toNat + k :=
  At.toNat_eq rfl hk

/-- The ACK number was sent. -/
theorem synAcks_acksSent (hj : 1 ≤ j) (hjk : j ≤ k + 3)
    (hk : (nextIsn isn).toNat + (k + 3) < 2 ^ 32) :
    AcksSent (synAcks isn k received sent) (.packet (synAcksAck isn j) ⟨0, 0⟩) := by
  intro _ _
  have hword := toNat_synAcks isn j (by omega)
  have hle : nextIsn isn ≤ nextIsn isn + BitVec.ofNat 32 j := by
    rw [BitVec.le_def, hword]
    omega
  have hdist : (nextIsn isn + BitVec.ofNat 32 j - nextIsn isn).toNat = j := by
    rw [BitVec.toNat_sub_of_le hle, hword]
    omega
  change 1 ≤ (nextIsn isn + BitVec.ofNat 32 j - nextIsn isn).toNat ∧
    (nextIsn isn + BitVec.ofNat 32 j - nextIsn isn).toNat ≤ k + 3
  omega

/-- A new ACK number moves `snd_una` and nothing else. -/
theorem synAcks_newAck {c : Conn} {s : Segment}
    (hc : c = (synAcks isn k received sent).receive s) (hs : s = synAcksAck isn j)
    (hj : k < j) (hjk : j ≤ k + 3) (hisn : 0 < (nextIsn isn).toNat)
    (hk : (nextIsn isn).toNat + (k + 3) < 2 ^ 32) :
    s.ack > c.tcb.sndUna ∧ handleNewAck c s.ack ⟨0, 0⟩ =
      some { c with tcb := { c.tcb with sndUna := s.ack } } := by
  have h₀ := toNat_synAcks isn k (by omega)
  have h₁ := toNat_synAcks isn j (by omega)
  have h₃ := toNat_synAcks isn (k + 3) (by omega)
  have hack : s.ack = nextIsn isn + BitVec.ofNat 32 j := by rw [hs]; rfl
  have huna : c.tcb.sndUna = nextIsn isn + BitVec.ofNat 32 k := by rw [hc]; rfl
  have hnxt : c.tcb.sndNxt = nextIsn isn + BitVec.ofNat 32 (k + 3) := by rw [hc]; rfl
  have hnew : s.ack > c.tcb.sndUna := by
    rw [hack, huna, gt_iff_lt, BitVec.lt_def]
    omega
  have hbelow : ¬s.ack > c.tcb.sndNxt := by
    rw [hack, hnxt, gt_iff_lt, BitVec.lt_def]
    omega
  have hmark : ¬c.tcb.sndUna ≤ c.tcb.rttMark := by
    have hm : c.tcb.rttMark = nextIsn isn - 1 := by rw [hc]; rfl
    have hone : (1 : Uint) ≤ nextIsn isn := hisn
    rw [huna, hm, BitVec.le_def, h₀, BitVec.toNat_sub_of_le hone]
    simp
    omega
  have hrtt : ackUna c.tcb s.ack ⟨0, 0⟩ = { c.tcb with sndUna := s.ack } := by
    rw [ackUna, if_neg fun hm => hmark hm.1, if_neg hbelow]
  have hstate : c.tcb.state = .synRecvd := by rw [hc]; rfl
  refine ⟨hnew, ?_⟩
  rw [handleNewAck, hrtt]
  simp only [hstate]

/-- The peer acknowledges one more SYN/ACK; the window opens by one. -/
theorem synAcks_ack (hisn : 0 < (nextIsn isn).toNat)
    (hk : (nextIsn isn).toNat + (k + 3) < 2 ^ 32) (received sent : List Segment) :
    step (synAcks isn k received sent) (.packet (synAcksAck isn (k + 1)) ⟨0, 0⟩) =
      some (synAcksAcked isn k (received ++ [synAcksAck isn (k + 1)]) sent) := by
  obtain ⟨s, hs⟩ : ∃ s, s = synAcksAck isn (k + 1) := ⟨_, rfl⟩
  obtain ⟨c, hc⟩ : ∃ c, c = (synAcks isn k received sent).receive s := ⟨_, rfl⟩
  obtain ⟨hnew, hadvance⟩ := synAcks_newAck hc hs (by omega) (by omega) hisn hk
  have h₁ := toNat_synAcks isn (k + 1) (by omega)
  have h₃ := toNat_synAcks isn (k + 3) (by omega)
  have hack : s.ack = nextIsn isn + BitVec.ofNat 32 (k + 1) := by rw [hs]; rfl
  have hnxt : c.tcb.sndNxt = nextIsn isn + BitVec.ofNat 32 (k + 3) := by rw [hc]; rfl
  have hflight : s.ack ≠ c.tcb.sndNxt := by
    intro heq
    have := congrArg BitVec.toNat heq
    rw [hack, hnxt, h₁, h₃] at this
    omega
  have hflag : s.isAck = true := by simp [hs, synAcksAck, Segment.isAck]
  have hblock : handleAck c s ⟨0, 0⟩ =
      some (.next { c with tcb := { c.tcb with sndUna := s.ack } }) := by
    rw [handleAck, if_pos hflag, if_pos hnew, hadvance, Option.bind_some]
    exact if_neg hflight
  have hclosed :
      windowSize { { c.tcb with sndUna := s.ack } with sndWnd := s.wnd.setWidth 32 } = 0 := by
    have hmax : c.tcb.sndMax = c.tcb.sndNxt := by rw [hc]; rfl
    simp [windowSize, hmax]
  have hupdate : windowUpdate { { c.tcb with sndUna := s.ack } with sndWnd := s.wnd.setWidth 32 } =
      { c.tcb with sndUna := s.ack, sndMax := s.ack + 3 } := by
    rw [hc, hs]
    rfl
  have hopen : windowSize { c.tcb with sndUna := s.ack, sndMax := s.ack + 3 } = 1 := by
    have hmax : At (nextIsn isn) (s.ack + 3) (k + 4) := by
      rw [hack]
      exact At.add rfl 3
    have hend : At (nextIsn isn) c.tcb.sndNxt (k + 3) := hnxt
    have hdist := hmax.toInt_sub hend (by push_cast; omega) (by push_cast; omega)
    rw [windowSize, hdist]
    push_cast
    omega
  have hwindow : handleWindow { c with tcb := { c.tcb with sndUna := s.ack } } s =
      markForIfWrite { c with tcb := { c.tcb with sndUna := s.ack, sndMax := s.ack + 3 } } := by
    rw [handleWindow]
    dsimp only
    rw [if_pos (by rw [hclosed]), hupdate, if_pos (by rw [hopen]; decide)]
  have htcp : handleTcp c s ⟨0, 0⟩ =
      some
        (markForIfWrite { c with tcb := { c.tcb with sndUna := s.ack, sndMax := s.ack + 3 } }) := by
    have hrst : s.isRst = false := by simp [hs, synAcksAck, Segment.isRst]
    have hseq : ¬s.seq < c.tcb.rcvNxt := by
      rw [hc, hs]
      exact BitVec.lt_irrefl (1001 : Uint)
    rw [handleTcp, hrst, hblock]
    simp only [Bool.false_eq_true, if_false, Option.bind_some]
    rw [if_neg hseq, hwindow, hc, hs]
    rfl
  have hlive : (synAcks isn k received sent).live = true := rfl
  rw [← hs, step, if_pos hlive]
  rw [← hc, htcp, hc, hs]
  rfl

/-- The peer acknowledges them all: the handshake is over, and the window opens. -/
theorem synAcks_opened (hisn : 0 < (nextIsn isn).toNat)
    (hk : (nextIsn isn).toNat + (k + 3) < 2 ^ 32) (received sent : List Segment) :
    step (synAcks isn k received sent) (.packet (synAcksAck isn (k + 3)) ⟨0, 0⟩) =
      some (synAcksOpened isn k (received ++ [synAcksAck isn (k + 3)]) sent (some (k + 4))
        [⟨k + 4, .doTcbWrite, .tcb 0, .always⟩]) := by
  obtain ⟨s, hs⟩ : ∃ s, s = synAcksAck isn (k + 3) := ⟨_, rfl⟩
  obtain ⟨c, hc⟩ : ∃ c, c = (synAcks isn k received sent).receive s := ⟨_, rfl⟩
  obtain ⟨hnew, hadvance⟩ := synAcks_newAck hc hs (by omega) (by omega) hisn hk
  obtain ⟨a, ha⟩ : ∃ a : Conn, a =
      { c with
        tcb := { c.tcb with sndUna := s.ack, state := .established }
        map := some ⟨5, some (k + 3), none⟩
        ev := ⟨[], [⟨k + 3, .handleFdCanRead, .tcpMap 0, .fd 5 false⟩], [], k + 4⟩ } := ⟨_, rfl⟩
  have hnxt : s.ack = c.tcb.sndNxt := by rw [hc, hs]; rfl
  have hflag : s.isAck = true := by simp [hs, synAcksAck, Segment.isAck]
  have hblock : handleAck c s ⟨0, 0⟩ = some (.next a) := by
    have hall : handleAllAcked { c with tcb := { c.tcb with sndUna := s.ack } } ⟨0, 0⟩ =
        some (.next a) := by
      rw [ha, hc]
      rfl
    rw [handleAck, if_pos hflag, if_pos hnew, hadvance, Option.bind_some]
    exact (if_pos hnxt).trans hall
  have hclosed : windowSize { a.tcb with sndWnd := s.wnd.setWidth 32 } = 0 := by
    have hmax : a.tcb.sndMax = a.tcb.sndNxt := by rw [ha, hc]; rfl
    simp [windowSize, hmax]
  have hupdate : windowUpdate { a.tcb with sndWnd := s.wnd.setWidth 32 } =
      { a.tcb with sndMax := s.ack + 3 } := by
    rw [ha, hc, hs]
    rfl
  have hopen : windowSize { a.tcb with sndMax := s.ack + 3 } = 3 := by
    have hend : a.tcb.sndNxt = s.ack := by rw [ha, hnxt]
    have hdist : s.ack + 3 - s.ack = 3 := by rw [BitVec.add_comm, BitVec.add_sub_cancel]
    rw [windowSize, hend, hdist]
    decide
  have hwindow : handleWindow a s =
      markForIfWrite { a with tcb := { a.tcb with sndMax := s.ack + 3 } } := by
    rw [handleWindow]
    dsimp only
    rw [if_pos (by rw [hclosed]), hupdate, if_pos (by rw [hopen]; decide)]
  have htcp : handleTcp c s ⟨0, 0⟩ =
      some (markForIfWrite { a with tcb := { a.tcb with sndMax := s.ack + 3 } }) := by
    have hrst : s.isRst = false := by simp [hs, synAcksAck, Segment.isRst]
    have hseq : ¬s.seq < a.tcb.rcvNxt := by
      rw [ha, hc, hs]
      exact BitVec.lt_irrefl (1001 : Uint)
    rw [handleTcp, hrst, hblock]
    simp only [Bool.false_eq_true, if_false, Option.bind_some]
    rw [if_neg hseq, hwindow]
    obtain ⟨m, hm⟩ : ∃ m, m = markForIfWrite { a with tcb := { a.tcb with sndMax := s.ack + 3 } } :=
      ⟨_, rfl⟩
    have hest : m.tcb.state = .established := by rw [hm, ha, hc]; rfl
    have hfin : s.isFin = false := by simp [hs, synAcksAck, Segment.isFin]
    have hdata : s.data = [] := by rw [hs]; rfl
    rw [← hm]
    simp [handleData, hest, tcpRecvData, recvPayload, recvFin, hfin, hdata]
  have hlive : (synAcks isn k received sent).live = true := rfl
  rw [← hs, step, if_pos hlive]
  rw [← hc, htcp, ha, hc, hs]
  rfl

/-- The SYN/ACK goes out with the next sequence number. -/
theorem synAcksAcked_write (isn : Uint) (k : ℕ) (received sent : List Segment) : ∃ x,
    step (synAcksAcked isn k received sent) (.alwaysEvent (k + 3) ⟨0, 0⟩) =
      some (synAcks isn (k + 1) received (sent ++ [x])) := by
  obtain ⟨c, hc⟩ : ∃ c, c = synAcksAcked isn k received sent := ⟨_, rfl⟩
  obtain ⟨x, hx⟩ : ∃ x, x = (makeTcpHdr c.tcb [] 0x12).2 := ⟨_, rfl⟩
  refine ⟨x, ?_⟩
  have hfind : findEvent c.ev.alwaysEventList (k + 3) (.tcb c.self) =
      some ⟨k + 3, .doTcbWrite, .tcb 0, .always⟩ := by
    rw [hc]
    simp [findEvent, synAcksAcked, synAcks]
  have hwrite : doTcbWrite c ⟨0, 0⟩ = some
      ({ c with
          tcb :=
            { c.tcb with lastAcked := c.tcb.rcvNxt, sndNxt := c.tcb.sndNxt + 1, eTcbSend := none }
          trace := c.trace.send c.tcb.iss x }, false) := by
    have hstate : c.tcb.state = .synRecvd := by rw [hc]; rfl
    rw [doTcbWrite, if_pos hstate, hx]
    rfl
  have hlive : c.live = true := by rw [hc]; rfl
  have hnxt : At (nextIsn isn) c.tcb.sndNxt (k + 3) := by rw [hc]; rfl
  have hnxt' : c.tcb.sndNxt + 1 = nextIsn isn + BitVec.ofNat 32 (k + 1 + 3) := hnxt.succ
  have hmax : nextIsn isn + BitVec.ofNat 32 (k + 1) + 3 =
      nextIsn isn + BitVec.ofNat 32 (k + 1 + 3) := At.add rfl 3
  have hhigh : reach (nextIsn isn) (k + 3) (x.seq + BitVec.ofNat 32 x.span) = k + 1 + 3 := by
    have hspan : x.span = 1 := Outlet.span_of_synAck (by rw [hx]; rfl) (by rw [hx]; rfl)
    have hseq : x.seq = c.tcb.sndNxt := by rw [hx]; rfl
    rw [hspan, hseq, reach_eq_max (hnxt.add 1) (by push_cast; omega) (by push_cast; omega)]
    omega
  rw [← hc, step, if_pos hlive]
  simp only [runAlwaysEvent, hfind, Option.bind_some, hwrite, Option.map_some, hnxt']
  rw [hc]
  simp only [synAcks, synAcksAcked, Trace.send, removeAlwaysEvent, delEvent]
  simp
  exact ⟨⟨hmax, rfl, rfl⟩, hhigh⟩

end Ptrtd
