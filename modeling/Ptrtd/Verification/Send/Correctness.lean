import Ptrtd.Verification.Handshake.SynAcks

/-! # What is sent is the stream

Every data segment carries the bytes of the stream that belong to its sequence numbers, and
a FIN follows the last byte, through rollbacks, jumps and buffer wraparound. What breaks it
is a handshake whose SYN/ACKs use up the sequence space. -/

namespace Ptrtd

variable {c : Conn} {i : Input}

/-- The SYN/ACKs, each of which takes a sequence number of its own, have not run past the
end of the space or through half of it. -/
def FewSynAcks (c : Conn) : Input → Prop
  | .packet _ _ => c.tcb.state = .synRecvd →
      c.tcb.iss.toNat + c.trace.high < 2 ^ 32 ∧ c.trace.high < 2 ^ 31
  | _ => True

instance (c : Conn) : (i : Input) → Decidable (FewSynAcks c i)
  | .packet _ _ => inferInstanceAs (Decidable (_ → _))
  | .timeEvent _ | .fdEvent _ _ | .alwaysEvent _ _ | .call _ | .others _ => isTrue trivial

namespace Outlet

variable {o o' : Outlet} {u n : ℕ} {s : Segment}

/-- The segment carries the bytes of the stream at its sequence number. -/
def Slice (o : Outlet) (s : Segment) : Prop :=
  ∃ k, s.seq = o.iss + 1 + BitVec.ofNat 32 k ∧ k + s.data.length ≤ o.written.length ∧
    s.data = (o.written.drop k).take s.data.length

/-- The segment ends where the stream ends, and the stream grows no more. -/
def AtEnd (o : Outlet) (s : Segment) : Prop :=
  o.Closing ∧
    s.seq + BitVec.ofNat 32 s.data.length = o.iss + 1 + BitVec.ofNat 32 o.written.length

theorem Slice.step (h : o.Slice s) (hstep : o.Step i o') : o'.Slice s := by
  obtain ⟨k, hseq, hlen, hdata⟩ := h
  obtain ⟨hiss, x, hx⟩ := hstep.grows
  refine ⟨k, hiss ▸ hseq, ?_, ?_⟩
  · rw [hx, List.length_append]
    omega
  · rw [hx, List.drop_append_of_le_length (by omega), List.take_append_of_le_length]
    · exact hdata
    · rw [List.length_drop]
      omega

theorem AtEnd.step (h : o.AtEnd s) (hstep : o.Step i o') : o'.AtEnd s := by
  obtain ⟨hclosing, hwritten⟩ := hstep.closing h.1
  exact ⟨hclosing, by rw [hstep.grows.1, hwritten, h.2]⟩

/-- The next segment is a slice of the stream. -/
theorem Sending.slice (h : o.Sending u n) (hdata : o.Chunk s.data) (hseq : s.seq = o.nxt)
    (hne : s.data ≠ []) : o.Slice s := by
  obtain ⟨hslice, hlen⟩ := h.chunk hdata
  have hpos := h.pos
  have hle := h.le
  have hlength : 0 < s.data.length := List.length_pos_of_ne_nil hne
  have hwithin : n ≤ o.written.length := by
    have := congrArg List.length hslice
    rw [List.length_take, List.length_drop] at this
    omega
  exact ⟨n - 1, hseq ▸ at_stream h.nxt (by omega), by omega, hslice⟩

/-- A FIN is at the end of the stream. -/
theorem Sending.atEnd (h : o.Sending u n) (hsyn : o.state ≠ .synRecvd) (hdata : o.Chunk s.data)
    (hseq : s.seq = o.nxt)
    (hfin : rbAvail o.outbuf (o.nxt + BitVec.ofNat 32 s.data.length) = 0 ∧
      isClosingState o.state = true) : o.AtEnd s := by
  obtain ⟨havail, hclosing⟩ := hfin
  have hend := h.fin hdata havail
  have hat := h.nxt.add s.data.length
  rw [hend] at hat
  refine ⟨⟨hsyn, (ne_of_isClosingState hclosing).2.1⟩, ?_⟩
  rw [hseq, at_stream hat (by omega), Nat.add_sub_cancel_left]

/-- The invariant of the send side. -/
structure Stream (o : Outlet) : Prop where
  opening : o.state = .synRecvd → ∃ u n, o.Opening u n
  sending : o.state ≠ .synRecvd → ∃ u n, o.Sending u n
  slices : ∀ s ∈ o.sent, s.data ≠ [] → o.Slice s
  fins : ∀ s ∈ o.sent, s.isFin = true → o.AtEnd s

/-- What has been sent stays correct, and so is what a step sends. -/
theorem Stream.sent (h : o.Stream) (hstep : o.Step i o') :
    (∀ s ∈ o'.sent, s.data ≠ [] → o'.Slice s) ∧ ∀ s ∈ o'.sent, s.isFin = true → o'.AtEnd s := by
  have hold : (∀ s ∈ o.sent, s.data ≠ [] → o'.Slice s) ∧
      ∀ s ∈ o.sent, s.isFin = true → o'.AtEnd s :=
    ⟨fun s hs hne => (h.slices s hs hne).step hstep, fun s hs hfin => (h.fins s hs hfin).step hstep⟩
  rcases hstep.sent_cases with hsame | ⟨x, hnew, hx⟩
  · rw [hsame]
    exact hold
  rw [hnew]
  refine ⟨fun s hs hne => ?_, fun s hs hfin => ?_⟩
  · rcases List.mem_append.mp hs with hs | hs
    · exact hold.1 s hs hne
    · obtain rfl := List.mem_singleton.mp hs
      rcases hx with ⟨hempty, -⟩ | ⟨hsyn, hdata, hseq, -⟩
      · exact absurd hempty hne
      · obtain ⟨u, n, hsend⟩ := h.sending hsyn
        exact (hsend.slice hdata hseq hne).step hstep
  · rcases List.mem_append.mp hs with hs | hs
    · exact hold.2 s hs hfin
    · obtain rfl := List.mem_singleton.mp hs
      rcases hx with ⟨-, hno⟩ | ⟨hsyn, hdata, hseq, hend⟩
      · rw [hfin] at hno
        cases hno
      · obtain ⟨u, n, hsend⟩ := h.sending hsyn
        exact (hsend.atEnd hsyn hdata hseq (hend hfin)).step hstep

/-- An ACK number that was sent and is new has not wrapped. -/
theorem ack_le_of_sent (huna : o.una.toNat = o.iss.toNat + u) (hnew : o.NewAck s)
    (hsent : (s.ack - o.iss).toNat ≤ o.high) : s.ack.toNat ≤ o.iss.toNat + o.high := by
  have hlt := BitVec.lt_def.mp hnew.2
  have hle : o.iss ≤ s.ack := BitVec.le_def.mpr (by omega)
  rw [BitVec.toNat_sub_of_le hle] at hsent
  omega

end Outlet

open Outlet

theorem Outlet.Opening.step {o : Outlet} {u n : ℕ} (h : c.outlet.Opening u n)
    (hsyn : c.tcb.state = .synRecvd) (hok : AcksSent c i ∧ FewSynAcks c i)
    (hstep : c.outlet.Step i o) :
    o.state = .synRecvd ∧ (∃ u n, o.Opening u n) ∨ o.state ≠ .synRecvd ∧ ∃ u n, o.Sending u n := by
  have hsame : ∀ o' : Outlet, o'.state = .synRecvd → o'.Opening u n →
      o'.state = .synRecvd ∧ (∃ u n, o'.Opening u n) ∨
        o'.state ≠ .synRecvd ∧ ∃ u n, o'.Sending u n :=
    fun _ hs ho => .inl ⟨hs, u, n, ho⟩
  cases hstep with
  | quiet => exact hsame _ hsyn h
  | removed => exact hsame _ hsyn (h.of_eq rfl rfl rfl rfl rfl rfl)
  | reset => exact hsame _ hsyn (h.of_eq rfl rfl rfl rfl rfl rfl)
  | @packet s now _ _ hrst hsettled hmoved =>
      obtain ⟨hspace, hsmall⟩ := hok.2 hsyn
      have hack : c.outlet.NewAck s → s.ack.toNat ≤ c.outlet.iss.toNat + c.outlet.high :=
        fun hnew => ack_le_of_sent h.una hnew (hok.1 hrst hnew.1).2
      rcases h.packet hsyn hack hspace hsettled hmoved with
        ⟨-, hs, u', ho⟩ | ⟨hflag, heq, ⟨u', ho⟩, hm⟩
      · exact .inl ⟨hs, u', n, ho⟩
      · obtain ⟨una, nxt, buf, ha⟩ := ack_eq (c.outlet.receive s) s
        have hbounds := hok.1 hrst hflag
        have hopened := ho.opened heq (by rw [ha]; exact hbounds.1.trans hbounds.2)
          (by rw [ha]; exact hspace) (by rw [ha]; exact hsmall)
        exact .inr ⟨(hm.state.2.1 nofun).1, n, n, hopened.moved nofun hm⟩
  | timeout hs => exact absurd hsyn hs
  | synAck _ hseq hdata hflags =>
      exact .inl ⟨hsyn, u, n + 1, (h.synAck hseq (span_of_synAck hdata hflags)).1⟩
  | segment hs => exact absurd hsyn hs
  | write hs => exact absurd (hsyn.symm.trans hs) nofun
  | close hs => exact absurd (hsyn.symm.trans hs) nofun
  | abort _ hseq hdata hflags =>
      have hhigh := h.emit_empty hseq (span_of_reset hdata hflags)
      exact hsame _ hsyn (h.of_eq rfl rfl rfl rfl rfl hhigh)

theorem Outlet.Stream.step {o : Outlet} (h : c.outlet.Stream)
    (hok : AcksSent c i ∧ FewSynAcks c i) (hstep : c.outlet.Step i o) : o.Stream := by
  obtain ⟨hslices, hfins⟩ := h.sent hstep
  by_cases hsyn : c.tcb.state = .synRecvd
  · obtain ⟨u, n, hopening⟩ := h.opening hsyn
    rcases hopening.step hsyn hok hstep with ⟨hs, ho⟩ | ⟨hs, ho⟩
    · exact ⟨fun _ => ho, fun hne => absurd hs hne, hslices, hfins⟩
    · exact ⟨fun heq => absurd heq hs, fun _ => ho, hslices, hfins⟩
  · obtain ⟨u, n, hsending⟩ := h.sending hsyn
    have hack : ∀ s now, i = .packet s now → s.isRst = false → c.outlet.NewAck s →
        s.ack.toNat ≤ c.outlet.iss.toNat + c.outlet.high := by
      rintro s now rfl hrst hnew
      exact ack_le_of_sent hsending.una hnew (hok.1 hrst hnew.1).2
    have hs := hstep.state hsyn
    exact ⟨fun heq => absurd heq hs, fun _ => hsending.step hsyn hack hstep, hslices, hfins⟩

theorem Outlet.Stream.fresh (isn : Uint) (syn : Segment) : (Outlet.fresh isn syn).Stream :=
  ⟨fun _ => ⟨0, 0, .fresh isn syn⟩, fun hs => absurd rfl hs, nofun, nofun⟩

theorem Outlet.Stream.abort {o : Outlet} {s : Segment} (h : o.Stream) (hsyn : o.state = .synRecvd)
    (hseq : s.seq = o.nxt) (hdata : s.data = []) (hflags : s.flags = 0x14) :
    Stream { o.emit s with live := false } := by
  obtain ⟨hslices, hfins⟩ := h.sent (i := .timeEvent 0) (.abort (.inl hsyn) hseq hdata hflags)
  obtain ⟨u, n, ho⟩ := h.opening hsyn
  have hhigh := ho.emit_empty hseq (span_of_reset hdata hflags)
  exact ⟨fun _ => ⟨u, n, ho.of_eq rfl rfl rfl rfl rfl hhigh⟩, fun hs => absurd hsyn hs, hslices,
    hfins⟩

theorem stream_of_reached (h : Reached (fun c i => AcksSent c i ∧ FewSynAcks c i) c) :
    c.outlet.Stream :=
  h.outlet_invariant .fresh (fun _ _ ho => ho.abort) fun _ _ _ ho hok _ hstep => ho.step hok hstep

/-- As long as the SYN/ACKs do not use up the sequence space, every data segment sent is a
slice of the stream at its sequence number, and a FIN ends where the whole stream ends. -/
theorem sent_slices_of_fewSynAcks (h : Reached (fun c i => AcksSent c i ∧ FewSynAcks c i) c) :
    (∀ s ∈ c.trace.sent, s.data ≠ [] → ∃ k,
      s.seq = c.tcb.iss + 1 + BitVec.ofNat 32 k ∧
        k + s.data.length ≤ c.trace.written.length ∧
        s.data = (c.trace.written.drop k).take s.data.length) ∧
    ∀ s ∈ c.trace.sent, s.isFin = true →
      (c.tcb.state ≠ .synRecvd ∧ c.tcb.state ≠ .established) ∧
        s.seq + BitVec.ofNat 32 s.data.length =
          c.tcb.iss + 1 + BitVec.ofNat 32 c.trace.written.length := by
  have hstream := stream_of_reached h
  exact ⟨hstream.slices, hstream.fins⟩

/-- Two bytes written in one go, and then the end of the stream. -/
theorem sent_slices_of_fewSynAcks_fin : ∃ c,
    Reached (fun c i => AcksSent c i ∧ FewSynAcks c i) c ∧
      (∃ s ∈ c.trace.sent, s.data = [7, 8]) ∧ (∃ s ∈ c.trace.sent, s.isFin = true) ∧
      (∀ s ∈ c.trace.sent, s.data ≠ [] → ∃ k,
        s.seq = c.tcb.iss + 1 + BitVec.ofNat 32 k ∧
          k + s.data.length ≤ c.trace.written.length ∧
          s.data = (c.trace.written.drop k).take s.data.length) ∧
      ∀ s ∈ c.trace.sent, s.isFin = true →
        (c.tcb.state ≠ .synRecvd ∧ c.tcb.state ≠ .established) ∧
          s.seq + BitVec.ofNat 32 s.data.length =
            c.tcb.iss + 1 + BitVec.ofNat 32 c.trace.written.length := by
  have hexec : (execFrom (fun c i => AcksSent c i ∧ FewSynAcks c i) .tcpMapCb 0 (clientSyn 8192)
      (.connected 5)
      (handshake ++ [.fdEvent 1 (.read (.data [7, 8])), .alwaysEvent 2 ⟨0, 0⟩,
        .fdEvent 1 (.read .eof), .alwaysEvent 4 ⟨0, 0⟩])).any
      (fun c => (∃ s ∈ c.trace.sent, s.data = [7, 8]) ∧ ∃ s ∈ c.trace.sent, s.isFin = true) =
      true := by
    decide +kernel
  obtain ⟨c, hreach, hc⟩ := reached_of_exec hexec
  obtain ⟨hdata, hfin⟩ := of_decide_eq_true hc
  exact ⟨c, hreach, hdata, hfin, sent_slices_of_fewSynAcks hreach⟩

/-! ## A handshake that uses up the space

A peer that keeps the window at three and acknowledges one SYN/ACK at a time makes the
block send another one each time. After 65536 of them `snd_nxt` has wrapped to 0, and
ACK numbers that were sent lie beyond it. -/

/-- `SYN_RECVD` after `k` acknowledged SYN/ACKs, with three more in flight. -/
def synAckLoop (k : ℕ) (received sent : List Segment) : Conn :=
  { self := 0
    tcb :=
      { newTcb .tcpMapCb 0xFFFE (clientSyn 3) with
        sndUna := 0xFFFF0000 + BitVec.ofNat 32 k
        sndNxt := 0xFFFF0000 + BitVec.ofNat 32 (k + 3)
        sndMax := 0xFFFF0000 + BitVec.ofNat 32 (k + 3)
        lastAcked := 1001 }
    live := true
    map := some ⟨5, none, none⟩
    ev := ⟨[], [], [], k + 3⟩
    trace :=
      { Trace.start (clientSyn 3) with received, sent, high := k + 3, acceptCalled := true } }

/-- Closing the window and opening it again sends another SYN/ACK. -/
def reopen (addr : ℕ) : List Input :=
  [client 1001 0 0 0 [], client 1001 0 0 3 [], .alwaysEvent addr ⟨0, 0⟩]

theorem synAckLoop_start : ∃ received sent, Reached AcksSent (synAckLoop 0 received sent) := by
  have hexec : execFrom AcksSent .tcpMapCb 0xFFFE (clientSyn 3) (.connected 5)
      (.alwaysEvent 0 ⟨0, 0⟩ :: reopen 1 ++ reopen 2) =
      some (synAckLoop 0
        [clientSyn 3, ⟨1001, 0, 0, 0, []⟩, ⟨1001, 0, 0, 3, []⟩, ⟨1001, 0, 0, 0, []⟩,
          ⟨1001, 0, 0, 3, []⟩]
        [⟨0xFFFF0000, 1001, 0x12, 0x4000, []⟩, ⟨0xFFFF0001, 1001, 0x12, 0x4000, []⟩,
          ⟨0xFFFF0002, 1001, 0x12, 0x4000, []⟩]) := rfl
  obtain ⟨c₀, hstart, hrun⟩ := Option.bind_eq_some_iff.mp hexec
  have hfrom : Start .tcpMapCb c₀ :=
    ⟨0, 0xFFFE, _, clientSyn 3, .connected 5, freshAddr_empty 0 0, hstart⟩
  exact ⟨_, _, .tcpMapCb, c₀, hfrom, Transition.run_of_exec hrun⟩

/-- The SYN/ACK before last but one is acknowledged, and the next one is scheduled. -/
def loopAcked (k : ℕ) (received sent : List Segment) : Conn :=
  { synAckLoop k received sent with
    tcb :=
      { (synAckLoop k received sent).tcb with
        sndUna := 0xFFFF0000 + BitVec.ofNat 32 (k + 1)
        sndMax := 0xFFFF0000 + BitVec.ofNat 32 (k + 1) + 3
        eTcbSend := some (k + 3) }
    ev := ⟨[], [], [⟨k + 3, .doTcbWrite, .tcb 0, .always⟩], k + 4⟩ }

theorem toNat_loop : (nextIsn 0xFFFE).toNat = 0xFFFF0000 := rfl

theorem synAckLoop_ack {k : ℕ} (hk : k + 3 < 0x10000) (received sent : List Segment) :
    step (synAckLoop k received sent)
        (client 1001 (0xFFFF0000 + BitVec.ofNat 32 (k + 1)) 0x10 3 []) =
      some (loopAcked k
        (received ++ [⟨1001, 0xFFFF0000 + BitVec.ofNat 32 (k + 1), 0x10, 3, []⟩]) sent) :=
  @synAcks_ack 0xFFFE k (by decide) (by rw [toNat_loop]; omega) received sent

theorem loopAcked_write (k : ℕ) (received sent : List Segment) : ∃ x,
    step (loopAcked k received sent) (.alwaysEvent (k + 3) ⟨0, 0⟩) =
      some (synAckLoop (k + 1) received (sent ++ [x])) :=
  synAcksAcked_write 0xFFFE k received sent

theorem synAckLoop_reached (k : ℕ) (hk : k ≤ 0xFFFD) :
    ∃ received sent, Reached AcksSent (synAckLoop k received sent) := by
  induction k with
  | zero => exact synAckLoop_start
  | succ k ih =>
      obtain ⟨received, sent, h⟩ := ih (by omega)
      have hspace : (nextIsn 0xFFFE).toNat + (k + 3) < 2 ^ 32 := by
        rw [toNat_loop]
        omega
      have hsent : AcksSent (synAcks 0xFFFE k received sent)
          (.packet (synAcksAck 0xFFFE (k + 1)) ⟨0, 0⟩) :=
        synAcks_acksSent (by omega) (by omega) hspace
      have hack := synAckLoop_ack (k := k) (by omega) received sent
      obtain ⟨x, hwrite⟩ := loopAcked_write k
        (received ++ [⟨1001, 0xFFFF0000 + BitVec.ofNat 32 (k + 1), 0x10, 3, []⟩]) sent
      exact ⟨_, _, (h.tail hsent hack).tail (i := .alwaysEvent (k + 3) ⟨0, 0⟩) trivial hwrite⟩

/-- Established behind `snd_nxt`: a later ACK number that was sent frees the empty buffer and
moves `w_seq` away from the end of the stream. -/
def strayed (una : Uint) (o : Ringbuf) (e : Option ℕ) (l : List Event) (n : ℕ)
    (received sent : List Segment) (written : List Uchar) : Conn :=
  { self := 0
    tcb :=
      { newTcb .tcpMapCb 0xFFFE (clientSyn 3) with
        state := .established
        outbuf := o
        sndUna := una
        sndNxt := una
        sndMax := una + 3
        eTcbSend := e
        lastAcked := 1001 }
    live := true
    map := some ⟨5, some 65536, none⟩
    ev := ⟨[], [⟨65536, .handleFdCanRead, .tcpMap 0, .fd 5 false⟩], l, n⟩
    trace :=
      { Trace.start (clientSyn 3) with
        received, sent, written, high := 0xFFFD + 3, acceptCalled := true } }

theorem strayed_established (received sent : List Segment) :
    step (synAckLoop 0xFFFD received sent) (client 1001 0xFFFFFFFE 0x10 3 []) =
      some (strayed 0xFFFFFFFE (rbSet (rbNew 16384) 0xFFFF0001) none [] 65537
        (received ++ [⟨1001, 0xFFFFFFFE, 0x10, 3, []⟩]) sent []) := by
  rfl

theorem strayed_freed (received sent : List Segment) :
    step (strayed 0xFFFFFFFE (rbSet (rbNew 16384) 0xFFFF0001) none [] 65537 received sent [])
        (client 1001 0xFFFFFFFF 0x10 3 []) =
      some (strayed 0xFFFFFFFF (rbSet (rbNew 16384) 0xFFFFFFFF) none [] 65537
        (received ++ [⟨1001, 0xFFFFFFFF, 0x10, 3, []⟩]) sent []) := by
  obtain ⟨s, hs⟩ : ∃ s : Segment, s = ⟨1001, 0xFFFFFFFF, 0x10, 3, []⟩ := ⟨_, rfl⟩
  obtain ⟨c, hc⟩ : ∃ c, c =
    (strayed 0xFFFFFFFE (rbSet (rbNew 16384) 0xFFFF0001) none [] 65537
        received sent []).receive s :=
      ⟨_, rfl⟩
  obtain ⟨c', hc'⟩ : ∃ c', c' = strayed 0xFFFFFFFF (rbSet (rbNew 16384) 0xFFFFFFFF) none [] 65537
    (received ++ [s]) sent [] := ⟨_, rfl⟩
  obtain ⟨a, ha⟩ : ∃ a : Conn,
    a = { c' with tcb := { c'.tcb with sndMax := c.tcb.sndMax } } := ⟨_, rfl⟩
  have hnew : handleNewAck c s.ack ⟨0, 0⟩ = some a := by
    rw [ha, hc, hc', hs]
    rfl
  have hall : handleAllAcked a ⟨0, 0⟩ = some (.next a) := by
    rw [ha, hc']
    rfl
  have hwindow : handleWindow a s = c' := by
    rw [ha, hc, hc', hs]
    rfl
  have hack : handleAck c s ⟨0, 0⟩ = some (.next a) := by
    have hflag : s.isAck = true := by rw [hs]; rfl
    have huna : c.tcb.sndUna = 0xFFFFFFFE := by rw [hc]; rfl
    have hgt : s.ack > c.tcb.sndUna := by
      rw [huna, hs]
      decide
    have heq : a.tcb.sndUna = a.tcb.sndNxt := by rw [ha, hc']; rfl
    rw [handleAck, if_pos hflag, if_pos hgt, hnew, Option.bind_some, if_pos heq, hall]
  have htcp : handleTcp c s ⟨0, 0⟩ = some c' := by
    have hrst : s.isRst = false := by rw [hs]; rfl
    have hseq : ¬s.seq < a.tcb.rcvNxt := by
      rw [hs, ha, hc']
      exact BitVec.lt_irrefl (1001 : Uint)
    have hdata : handleData c' s ⟨0, 0⟩ = some c' := by
      rw [hs, hc']
      rfl
    rw [handleTcp, hrst, hack]
    simp only [Bool.false_eq_true, if_false, Option.bind_some]
    rw [if_neg hseq, hwindow, hdata]
  have hlive : (strayed 0xFFFFFFFE (rbSet (rbNew 16384) 0xFFFF0001) none [] 65537 received sent
    []).live = true := rfl
  rw [client, ← hs, ← hc', step, if_pos hlive, ← hc, htcp]

/-- The buffer with the byte 7 at the wrong place. -/
def strayBuf : Ringbuf :=
  ⟨some (Circular.store (fun _ => 0) 0 [7]), 16384, 0xFFFFFFFF + BitVec.ofNat 32 1, 1, 1⟩

theorem strayed_written (received sent : List Segment) :
    step (strayed 0xFFFFFFFF (rbSet (rbNew 16384) 0xFFFFFFFF) none [] 65537 received sent [])
        (.fdEvent 65536 (.read (.data [7]))) =
      some (strayed 0xFFFFFFFF strayBuf (some 65537) [⟨65537, .doTcbWrite, .tcb 0, .always⟩] 65538
        received sent [7]) := by
  obtain ⟨c, hc⟩ : ∃ c, c = strayed 0xFFFFFFFF (rbSet (rbNew 16384) 0xFFFFFFFF) none [] 65537
    received sent [] := ⟨_, rfl⟩
  obtain ⟨c', hc'⟩ : ∃ c', c' = strayed 0xFFFFFFFF strayBuf (some 65537)
    [⟨65537, .doTcbWrite, .tcb 0, .always⟩] 65538 received sent [7] := ⟨_, rfl⟩
  have hwrite : rbWrite c.tcb.outbuf [7] = some (strayBuf, 1) := by
    have hbuf : rbWrite (rbSet (rbNew 16384) 0xFFFFFFFF) [7] = some (strayBuf, 1) := rfl
    rw [hc]
    exact hbuf
  have hsend : tcpSend c [7] = some c' := by
    rw [tcpSend, hwrite, hc, hc']
    rfl
  have hspace : tcpGetOutputSpace c.tcb = 16384 := by rw [hc]; rfl
  have hspace' : tcpGetOutputSpace c'.tcb = 16383 := by rw [hc']; rfl
  have hmap : c.map = some ⟨5, some 65536, none⟩ := by rw [hc]; rfl
  have hread : handleFdCanRead c (.data [7]) = some (c', true) := by
    simp [handleFdCanRead, hspace, hspace', hsend, hmap, tbSize]
  have hlive : c.live = true := by rw [hc]; rfl
  have hfind : findEvent c.ev.fdEventList 65536 (.tcpMap c.self) =
      some ⟨65536, .handleFdCanRead, .tcpMap 0, .fd 5 false⟩ := by rw [hc]; rfl
  rw [← hc, ← hc', step, if_pos hlive]
  simp only [runFdEvent, hfind, Option.bind_some, hread, Option.map_some, if_true]

theorem strayed_sent (received sent : List Segment) : ∃ c,
    step (strayed 0xFFFFFFFF strayBuf (some 65537) [⟨65537, .doTcbWrite, .tcb 0, .always⟩] 65538
        received sent [7]) (.alwaysEvent 65537 ⟨0, 0⟩) = some c ∧
      c.tcb.iss = 0xFFFF0000 ∧ c.trace.written = [7] ∧
        ∃ s ∈ c.trace.sent, s.seq = 0xFFFFFFFF ∧ s.data = [7] := by
  obtain ⟨c, hc⟩ : ∃ c, c = strayed 0xFFFFFFFF strayBuf (some 65537)
    [⟨65537, .doTcbWrite, .tcb 0, .always⟩] 65538 received sent [7] := ⟨_, rfl⟩
  have hread : rbRead c.tcb.outbuf c.tcb.sndNxt 1 = some [7] := by
    have hbuf : rbRead strayBuf 0xFFFFFFFF 1 = some [7] := by decide +kernel
    rw [hc]
    exact hbuf
  have havail : rbAvail c.tcb.outbuf c.tcb.sndNxt = 1 := by
    have hbuf : rbAvail strayBuf 0xFFFFFFFF = 1 := by decide +kernel
    rw [hc]
    exact hbuf
  have hwnd : windowSize c.tcb = 3 := by rw [hc]; rfl
  have hmss : c.tcb.mss = 1220 := by rw [hc]; rfl
  have hdata : sendData c.tcb = some [7] := by
    simp [sendData, hwnd, havail, hread, hmss]
  have hlive : c.live = true := by rw [hc]; rfl
  have hfind : findEvent c.ev.alwaysEventList 65537 (.tcb c.self) =
      some ⟨65537, .doTcbWrite, .tcb 0, .always⟩ := by rw [hc]; rfl
  have hstate : c.tcb.state ≠ .synRecvd := by rw [hc]; rintro ⟨⟩
  obtain ⟨l, n, e, k, m, r, w, a, hemit⟩ :=
    emitSegment_eq c [7] (finDue c.tcb [(7 : Uchar)].length) ⟨0, 0⟩
  obtain ⟨x, hx⟩ : ∃ x, x = emitSegment c [7] (finDue c.tcb [(7 : Uchar)].length) ⟨0, 0⟩ := ⟨_, rfl⟩
  have hsend : tcpSendAndAck c ⟨0, 0⟩ = some (x, sendAgain x.tcb) := by
    rw [tcpSendAndAck, hdata, Option.map_some, if_neg (by simp), hx]
  have hwrite : ∃ y b, doTcbWrite c ⟨0, 0⟩ = some (y, b) ∧ y.tcb.iss = x.tcb.iss ∧
      y.trace = x.trace := by
    rw [doTcbWrite, if_neg hstate, hsend, Option.map_some]
    cases sendAgain x.tcb <;> exact ⟨_, _, rfl, rfl, rfl⟩
  obtain ⟨y, b, hwrite, hiss, htrace⟩ := hwrite
  have hstep : ∃ z, step c (.alwaysEvent 65537 ⟨0, 0⟩) = some z ∧ z.tcb = y.tcb ∧
      z.trace = y.trace := by
    rw [step, if_pos hlive]
    simp only [runAlwaysEvent, hfind, Option.bind_some, hwrite, Option.map_some]
    cases b <;> exact ⟨_, rfl, rfl, rfl⟩
  obtain ⟨z, hstep, htcb, htrace'⟩ := hstep
  refine ⟨z, hc ▸ hstep, ?_, ?_, ?_⟩
  · rw [htcb, hiss, hx, hemit, hc]
    rfl
  · rw [htrace', htrace, hx, hemit, hc]
    rfl
  · rw [htrace', htrace, hx, hemit]
    exact ⟨_, List.mem_append_right _ (List.mem_singleton_self _), by rw [hc]; rfl, rfl⟩

/-- After 65536 SYN/ACKs the only byte written is sent 65534 bytes behind its place. -/
theorem stray_byte_sent : ∃ c, Reached AcksSent c ∧ ∃ s ∈ c.trace.sent, s.data ≠ [] ∧
    ¬∃ k, s.seq = c.tcb.iss + 1 + BitVec.ofNat 32 k ∧
      k + s.data.length ≤ c.trace.written.length ∧
      s.data = (c.trace.written.drop k).take s.data.length := by
  obtain ⟨received, sent, h⟩ := synAckLoop_reached 0xFFFD le_rfl
  obtain ⟨c, hsent, hiss, hwritten, s, hs, hseq, hdata⟩ := strayed_sent
    (received ++ [⟨1001, 0xFFFFFFFE, 0x10, 3, []⟩] ++ [⟨1001, 0xFFFFFFFF, 0x10, 3, []⟩]) sent
  have hvalid : 1 ≤ (0xFFFFFFFE - 0xFFFF0000 : Uint).toNat ∧
      (0xFFFFFFFE - 0xFFFF0000 : Uint).toNat ≤ 0xFFFD + 3 := by decide
  have hvalid' : 1 ≤ (0xFFFFFFFF - 0xFFFF0000 : Uint).toNat ∧
      (0xFFFFFFFF - 0xFFFF0000 : Uint).toNat ≤ 0xFFFD + 3 := by decide
  have hreach := h.tail (i := client 1001 0xFFFFFFFE 0x10 3 []) (fun _ _ => hvalid)
    (strayed_established received sent)
  have hreach := hreach.tail (i := client 1001 0xFFFFFFFF 0x10 3 []) (fun _ _ => hvalid')
    (strayed_freed _ sent)
  have hreach := hreach.tail (i := .fdEvent 65536 (.read (.data [7]))) trivial
    (strayed_written _ sent)
  have hreach := hreach.tail (i := .alwaysEvent 65537 ⟨0, 0⟩) trivial hsent
  refine ⟨c, hreach, s, hs, by rw [hdata]; nofun, ?_⟩
  rintro ⟨k, hk, hlen, -⟩
  rw [hdata, hwritten] at hlen
  have hzero : k = 0 := by
    simp only [List.length_singleton] at hlen
    omega
  rw [hseq, hiss, hzero] at hk
  exact absurd hk (by decide)

end Ptrtd
