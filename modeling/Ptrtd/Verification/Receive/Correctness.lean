import Ptrtd.Verification.Receive.Intake

/-! # What is stored and what is acknowledged

`tcp_recv_data` advances `rcv_nxt` by the length of every segment it gets, whether its
sequence number continues the stream and whether its payload fits. As long as both are the
case, `inbuf` holds a prefix of the peer's stream and `rcv_nxt` acknowledges exactly that. -/

namespace Ptrtd

variable {c c' : Conn} {i : Input} {s : Segment} {now : Timeval} {B : List Uchar}

/-! ## Storing a segment -/

/-- What is stored is appended to `inbuf`. -/
theorem Stored.content {r : Ringbuf} {w : Uint} {x : List Uchar} {seq : Uint}
    (h : Stored c s r w x) (hfrom : c.tcb.inbuf.From seq) :
    r.content = c.tcb.inbuf.content ++ x := by
  rcases h with ⟨-, rfl, -, rfl⟩ | ⟨-, -, n, hw, -, rfl⟩
  · rw [List.append_nil]
  · exact (Buffer.from_write hfrom hw).1.content

/-- A payload that fits is stored whole. -/
theorem Stored.fits {r : Ringbuf} {w : Uint} {x : List Uchar} (hwf : WellFormed c)
    (hatt : c.Attached) (h : Stored c s r w x) (hfit : (s.data.length : ℤ) ≤ rbLeft c.tcb.inbuf) :
    x = s.data ∧ r.wSeq = c.tcb.inbuf.wSeq + BitVec.ofNat 32 s.data.length ∧
      (r = c.tcb.inbuf ∧ w = c.tcb.rcvWnd ∨ w = BitVec.ofInt 32 (rbLeft r)) := by
  rcases h with ⟨hnone, rfl, rfl, rfl⟩ | ⟨-, -, n, hw, rfl, rfl⟩
  · have hzero : s.data.length = 0 := by
      rcases hnone with h | h
      · exact h
      · have hcb := hwf.cb.mpr hatt.2
        rw [h] at hcb
        cases hcb
    refine ⟨(List.eq_nil_of_length_eq_zero hzero).symm, ?_, .inl ⟨rfl, rfl⟩⟩
    rw [hzero, BitVec.add_zero]
  · obtain ⟨hspec, -⟩ := Buffer.from_write hwf.inbuf hw
    have hused := hwf.inbuf.ok.used_le
    have hn : n = s.data.length := by
      rw [hspec.stored]
      rw [rbLeft] at hfit
      omega
    refine ⟨?_, ?_, .inr rfl⟩
    · rw [hn, List.take_length]
    · rw [hspec.wSeq, hn]

/-! ## Nothing is acknowledged that is not stored -/

/-- A segment accepted from the peer fits the space left in `inbuf`. -/
def Fits (c : Conn) : Input → Prop
  | .packet s _ => Accepts c s → (s.data.length : ℤ) ≤ rbLeft c.tcb.inbuf
  | _ => True

instance (c : Conn) : (i : Input) → Decidable (Fits c i)
  | .packet _ _ => inferInstanceAs (Decidable (_ → _))
  | .timeEvent _ | .fdEvent _ _ | .alwaysEvent _ _ | .call _ | .others _ => isTrue trivial

/-- `rcv_nxt` is the end of `inbuf`, and the window is the space left. -/
def Acknowledged (c : Conn) : Prop :=
  c.Attached → c.tcb.inbuf.wSeq = c.tcb.rcvNxt ∧
    c.tcb.rcvWnd = BitVec.ofInt 32 (rbLeft c.tcb.inbuf)

theorem Acknowledged.of_start {app : TcpCallback} (h : Start app c) : Acknowledged c := by
  obtain ⟨irs, mapped, closed, -, hin⟩ := start_intake h
  intro _
  have hbuf : c.tcb.inbuf = rbSet (rbNew 16384) (irs + 1) := congrArg Intake.inbuf hin
  have hnxt : c.tcb.rcvNxt = irs + 1 := congrArg Intake.rcvNxt hin
  have hwnd : c.tcb.rcvWnd = _ := congrArg Intake.rcvWnd hin
  rw [hbuf, hnxt, hwnd]
  exact ⟨rfl, rfl⟩

theorem Acknowledged.step (hwf : WellFormed c) (h : Acknowledged c) (hfits : Fits c i)
    (hstep : IntakeStep c i c') : Acknowledged c' := by
  intro hatt'
  cases hstep with
  | idle hin hatt =>
      have hbuf : c'.tcb.inbuf = c.tcb.inbuf := congrArg Intake.inbuf hin
      have hnxt : c'.tcb.rcvNxt = c.tcb.rcvNxt := congrArg Intake.rcvNxt hin
      have hwnd : c'.tcb.rcvWnd = c.tcb.rcvWnd := congrArg Intake.rcvWnd hin
      rw [hbuf, hnxt, hwnd]
      exact h (hatt hatt')
  | unattached hnot => exact absurd hatt' hnot
  | @data s now c' r w x hatt hacc hstored hin =>
      have hbuf : c'.tcb.inbuf = r := congrArg Intake.inbuf hin
      have hnxt : c'.tcb.rcvNxt = _ := congrArg Intake.rcvNxt hin
      have hwnd : c'.tcb.rcvWnd = w := congrArg Intake.rcvWnd hin
      obtain ⟨hseq, hwin⟩ := h hatt
      obtain ⟨-, hwseq, hw⟩ := hstored.fits hwf hatt (hfits hacc)
      rw [hbuf, hnxt, hwnd, hwseq, hseq]
      refine ⟨rfl, ?_⟩
      rcases hw with ⟨rfl, rfl⟩ | rfl
      · exact hwin
      · rfl
  | fin _ _ _ _ _ hdet => exact absurd hatt' hdet.attached
  | reset _ hdet => exact absurd hatt' hdet.attached
  | eof _ _ hdet => exact absurd hatt' hdet.attached
  | notConnected hdet => exact absurd hatt' hdet.attached
  | appClose _ hdet => exact absurd hatt' hdet.attached
  | appRead _ hread =>
      have hspec := tcpRead_spec hwf.inbuf hread
      obtain ⟨-, -, -, hnxt, hwnd, hatt⟩ := tcpRead_intake hread
      rw [hspec.wSeq, hnxt]
      exact ⟨(h (hatt.mp hatt')).1, hwnd⟩
  | @write addr r d a c' x _ hread _ hin hatt'' =>
      have hspec := tcpRead_spec hwf.inbuf hread
      obtain ⟨-, -, -, hnxt, hwnd, hatt⟩ := tcpRead_intake hread
      have hbuf : c'.tcb.inbuf = a.tcb.inbuf := congrArg Intake.inbuf hin
      have hnxt' : c'.tcb.rcvNxt = a.tcb.rcvNxt := congrArg Intake.rcvNxt hin
      have hwnd' : c'.tcb.rcvWnd = a.tcb.rcvWnd := congrArg Intake.rcvWnd hin
      rw [hbuf, hnxt', hwnd', hspec.wSeq, hnxt]
      exact ⟨(h (hatt.mp (hatt'' hatt'))).1, hwnd⟩
  | writeFailed _ _ _ hdet => exact absurd hatt' hdet.attached

/-- As long as every accepted segment fits, an established block acknowledges exactly what
it has stored, and advertises exactly the space that is left. -/
theorem acknowledged_of_fits (h : Reached Fits c) (hlive : c.live = true)
    (hest : c.tcb.state = .established) :
    c.tcb.inbuf.wSeq = c.tcb.rcvNxt ∧
      (c.tcb.inbuf.wSeq - c.tcb.readSeq).toInt = c.tcb.inbuf.used ∧
      c.tcb.rcvWnd = BitVec.ofInt 32 (rbLeft c.tcb.inbuf) := by
  have hwf := WellFormed.of_reached h
  have hinv : Acknowledged c := h.invariant (fun _ _ => .of_start)
    fun _ _ _ hwf hinv hfits hlive hstep => hinv.step hwf hfits (step_intake hwf hlive hstep)
  obtain ⟨hseq, hwnd⟩ := hinv ⟨hlive, .inr hest⟩
  exact ⟨hseq, Buffer.from_toInt hwf.inbuf, hwnd⟩

theorem acknowledged_of_fits_handshake : ∃ c, Reached Fits c ∧
    c.tcb.inbuf.wSeq = c.tcb.rcvNxt ∧
      (c.tcb.inbuf.wSeq - c.tcb.readSeq).toInt = c.tcb.inbuf.used ∧
      c.tcb.rcvWnd = BitVec.ofInt 32 (rbLeft c.tcb.inbuf) := by
  have hexec : (execFrom Fits .tcpMapCb 0 (clientSyn 8192) (.connected 5)
      (handshake ++ [client 1001 0x10001 0x10 8192 [1, 2, 3]])).any
      (fun c => c.live ∧ c.tcb.state = .established) = true := by
    decide +kernel
  obtain ⟨c, hreach, hc⟩ := reached_of_exec hexec
  obtain ⟨hlive, hest⟩ := of_decide_eq_true hc
  exact ⟨c, hreach, acknowledged_of_fits hreach hlive hest⟩

/-- Fourteen full segments without a read in between: the buffer holds less than they carry,
and everything is acknowledged. No FIN is involved. -/
theorem overrun_acknowledged : ∃ c, Reached Transition.Always c ∧ c.live = true ∧
    c.tcb.state = .established ∧ (∀ s ∈ c.trace.received, s.isFin = false) ∧
      c.tcb.inbuf.wSeq ≠ c.tcb.rcvNxt := by
  have hexec : (execFrom Transition.Always .tcpMapCb 0 (clientSyn 8192) (.connected 5)
      (handshake ++ (List.range 14).map fun k =>
        client (1001 + 1220 * BitVec.ofNat 32 k) 0x10001 0x10 8192 (List.replicate 1220 7))).any
      (fun c => c.live ∧ c.tcb.state = .established ∧ (∀ s ∈ c.trace.received, s.isFin = false) ∧
        c.tcb.inbuf.wSeq ≠ c.tcb.rcvNxt) = true := by
    decide +kernel
  obtain ⟨c, hreach, hc⟩ := reached_of_exec hexec
  exact ⟨c, hreach, of_decide_eq_true hc⟩

/-! ## The stored bytes are a prefix of the peer's stream -/

/-- The payload of an accepted segment is the slice of the stream `B` at its sequence
number, the stream does not wrap, and the payload fits. -/
def PeerStream (B : List Uchar) (c : Conn) : Input → Prop
  | .packet s _ => Accepts c s → s.data ≠ [] →
      c.tcb.irs.toNat + 1 + B.length < 2 ^ 32 ∧ c.tcb.irs.toNat + 1 ≤ s.seq.toNat ∧
        s.data <+: B.drop (s.seq.toNat - (c.tcb.irs.toNat + 1)) ∧
        (s.data.length : ℤ) ≤ rbLeft c.tcb.inbuf
  | _ => True

/-- No accepted segment with data starts beyond `rcv_nxt`. -/
def NoGap (c : Conn) : Input → Prop
  | .packet s _ => Accepts c s → s.data ≠ [] → s.seq ≤ c.tcb.rcvNxt
  | _ => True

instance (c : Conn) : (i : Input) → Decidable (PeerStream B c i)
  | .packet _ _ => inferInstanceAs (Decidable (_ → _))
  | .timeEvent _ | .fdEvent _ _ | .alwaysEvent _ _ | .call _ | .others _ => isTrue trivial

instance (c : Conn) : (i : Input) → Decidable (NoGap c i)
  | .packet _ _ => inferInstanceAs (Decidable (_ → _))
  | .timeEvent _ | .fdEvent _ _ | .alwaysEvent _ _ | .call _ | .others _ => isTrue trivial

/-- What is stored is a prefix of `B`, and `rcv_nxt` stands right behind it. -/
structure Follows (B : List Uchar) (c : Conn) : Prop where
  stored : c.trace.stored <+: B
  rcvNxt : c.Attached → SeqNum.At (c.tcb.irs + 1) c.tcb.rcvNxt c.trace.stored.length

theorem Follows.of_start {app : TcpCallback} (h : Start app c) : Follows B c := by
  obtain ⟨irs, mapped, closed, -, hin⟩ := start_intake h
  have hstored : c.trace.stored = [] := congrArg Intake.stored hin
  have hirs : c.tcb.irs = irs := congrArg Intake.irs hin
  have hnxt : c.tcb.rcvNxt = irs + 1 := congrArg Intake.rcvNxt hin
  refine ⟨by rw [hstored]; exact List.nil_prefix, fun _ => ?_⟩
  rw [hstored, hirs, hnxt]
  exact SeqNum.at_zero

/-- The next slice of a stream extends a prefix of it. -/
theorem prefix_append {stored d : List Uchar} (h : stored <+: B)
    (hd : d <+: B.drop stored.length) : stored ++ d <+: B := by
  obtain ⟨rest, rfl⟩ := h
  rw [List.drop_left] at hd
  exact (List.prefix_append_right_inj stored).mpr hd

/-- An accepted segment without a gap continues the stream. -/
theorem Follows.accept {r : Ringbuf} {w : Uint} {x : List Uchar} (hwf : WellFormed c)
    (h : Follows B c) (hatt : c.Attached) (hacc : Accepts c s) (hstored : Stored c s r w x)
    (hpeer : PeerStream B c (.packet s now)) (hgap : NoGap c (.packet s now)) :
    c.trace.stored ++ x <+: B ∧ x.length = s.data.length := by
  by_cases hnil : s.data = []
  · have hx : x = [] := by
      rcases hstored with ⟨-, -, -, hx⟩ | ⟨hpos, -⟩
      · exact hx
      · rw [hnil] at hpos
        cases hpos
    rw [hx, hnil, List.append_nil]
    exact ⟨h.stored, rfl⟩
  · obtain ⟨hwrap, hlow, hslice, hfit⟩ := hpeer hacc hnil
    obtain ⟨rfl, -, -⟩ := hstored.fits hwf hatt hfit
    -- the segment starts exactly at `rcv_nxt`
    have hseq : s.seq = c.tcb.rcvNxt :=
      BitVec.le_antisymm (hgap hacc hnil) (BitVec.not_lt.mp hacc.2.1)
    have hlen := h.stored.length_le
    have hirs : (c.tcb.irs + 1).toNat = c.tcb.irs.toNat + 1 := by
      rw [BitVec.toNat_add]
      exact Nat.mod_eq_of_lt (by simp; omega)
    have hnxt : c.tcb.rcvNxt.toNat = c.tcb.irs.toNat + 1 + c.trace.stored.length := by
      rw [(h.rcvNxt hatt).toNat_eq (by omega), hirs]
    have hoffset : s.seq.toNat - (c.tcb.irs.toNat + 1) = c.trace.stored.length := by
      rw [hseq]
      omega
    rw [hoffset] at hslice
    exact ⟨prefix_append h.stored hslice, rfl⟩

theorem Follows.step (hwf : WellFormed c) (h : Follows B c) (hpeer : PeerStream B c i)
    (hgap : NoGap c i) (hstep : IntakeStep c i c') : Follows B c' := by
  have hdetach : ∀ {a a' : Conn}, a.trace.stored <+: B → Detached a a' → Follows B a' :=
    fun hpre hdet => ⟨hdet.stored ▸ hpre, fun hatt => absurd hatt hdet.attached⟩
  cases hstep with
  | idle hin hatt =>
      have hstored : c'.trace.stored = c.trace.stored := congrArg Intake.stored hin
      have hirs : c'.tcb.irs = c.tcb.irs := congrArg Intake.irs hin
      have hnxt : c'.tcb.rcvNxt = c.tcb.rcvNxt := congrArg Intake.rcvNxt hin
      refine ⟨hstored ▸ h.stored, fun hatt' => ?_⟩
      rw [hstored, hirs, hnxt]
      exact h.rcvNxt (hatt hatt')
  | unattached hnot hin =>
      have hstored : c'.trace.stored = c.trace.stored := congrArg Intake.stored hin
      exact ⟨hstored ▸ h.stored, fun hatt' => absurd hatt' hnot⟩
  | @data s now c' r w x hatt hacc hst hin =>
      have hstored : c'.trace.stored = c.trace.stored ++ x := congrArg Intake.stored hin
      have hirs : c'.tcb.irs = c.tcb.irs := congrArg Intake.irs hin
      have hnxt : c'.tcb.rcvNxt = _ := congrArg Intake.rcvNxt hin
      obtain ⟨hpre, hlen⟩ := h.accept hwf hatt hacc hst hpeer hgap
      refine ⟨hstored ▸ hpre, fun _ => ?_⟩
      rw [hstored, hirs, hnxt, List.length_append, hlen]
      exact (h.rcvNxt hatt).add _
  | @fin s now a c' r w x hatt hacc _ hst hin hdet =>
      have hstored : a.trace.stored = c.trace.stored ++ x := congrArg Intake.stored hin
      exact hdetach (hstored ▸ (h.accept hwf hatt hacc hst hpeer hgap).1) hdet
  | reset _ hdet => exact hdetach h.stored hdet
  | eof _ _ hdet => exact hdetach h.stored hdet
  | notConnected hdet => exact hdetach h.stored hdet
  | appClose _ hdet => exact hdetach h.stored hdet
  | appRead _ hread =>
      obtain ⟨htr, -, hirs, hnxt, -, hatt⟩ := tcpRead_intake hread
      refine ⟨htr ▸ h.stored, fun hatt' => ?_⟩
      rw [htr, hirs, hnxt]
      exact h.rcvNxt (hatt.mp hatt')
  | @write addr r d a c' x _ hread _ hin hatt'' =>
      obtain ⟨htr, -, hirs, hnxt, -, hatt⟩ := tcpRead_intake hread
      have hstored : c'.trace.stored = a.trace.stored := congrArg Intake.stored hin
      have hirs' : c'.tcb.irs = a.tcb.irs := congrArg Intake.irs hin
      have hnxt' : c'.tcb.rcvNxt = a.tcb.rcvNxt := congrArg Intake.rcvNxt hin
      rw [htr] at hstored
      refine ⟨hstored ▸ h.stored, fun hatt' => ?_⟩
      rw [hstored, hirs', hnxt', hirs, hnxt]
      exact h.rcvNxt (hatt.mp (hatt'' hatt'))
  | writeFailed _ _ hread hdet =>
      obtain ⟨htr, -⟩ := tcpRead_intake hread
      exact hdetach (htr ▸ h.stored) hdet

/-- As long as segments leave no gap, what is stored is a prefix of the peer's stream, and
an established block expects the byte behind it. -/
theorem stored_prefix_of_noGap (h : Reached (fun c i => PeerStream B c i ∧ NoGap c i) c)
    (hwrap : c.tcb.irs.toNat + 1 + B.length < 2 ^ 32) :
    c.trace.stored <+: B ∧
      (c.live = true → c.tcb.state = .established →
        c.tcb.rcvNxt.toNat = c.tcb.irs.toNat + 1 + c.trace.stored.length) := by
  have hinv : Follows B c := h.invariant (fun _ _ => .of_start)
    fun _ _ _ hwf hinv hok hlive hstep => hinv.step hwf hok.1 hok.2 (step_intake hwf hlive hstep)
  refine ⟨hinv.stored, fun hlive hest => ?_⟩
  have hlen := hinv.stored.length_le
  have hirs : (c.tcb.irs + 1).toNat = c.tcb.irs.toNat + 1 := by
    rw [BitVec.toNat_add]
    exact Nat.mod_eq_of_lt (by simp; omega)
  rw [(hinv.rcvNxt ⟨hlive, .inr hest⟩).toNat_eq (by omega), hirs]

theorem stored_prefix_of_noGap_retransmitted : ∃ c,
    Reached (fun c i => PeerStream [1, 2, 3] c i ∧ NoGap c i) c ∧ c.trace.stored = [1, 2, 3] ∧
      c.trace.stored <+: [1, 2, 3] ∧
      (c.live = true → c.tcb.state = .established →
        c.tcb.rcvNxt.toNat = c.tcb.irs.toNat + 1 + c.trace.stored.length) := by
  have hexec : (execFrom (fun c i => PeerStream [1, 2, 3] c i ∧ NoGap c i) .tcpMapCb 0
      (clientSyn 8192) (.connected 5)
      (handshake ++
        [client 1001 0x10001 0x10 8192 [1], client 1001 0x10001 0x10 8192 [1, 2],
          client 1002 0x10001 0x10 8192 [2, 3]])).any
      (fun c => c.trace.stored = [1, 2, 3] ∧ c.tcb.irs.toNat + 1 + [1, 2, 3].length < 2 ^ 32) =
      true := by
    decide +kernel
  obtain ⟨c, hreach, hc⟩ := reached_of_exec hexec
  obtain ⟨hstored, hwrap⟩ := of_decide_eq_true hc
  exact ⟨c, hreach, hstored, stored_prefix_of_noGap hreach hwrap⟩

/-- The first byte of the stream is lost, and the segment with the others is stored. -/
theorem gap_stored : ∃ c, Reached (PeerStream [1, 2, 3]) c ∧
    c.tcb.irs.toNat + 1 + [1, 2, 3].length < 2 ^ 32 ∧ c.live = true ∧
      c.tcb.state = .established ∧ ¬c.trace.stored <+: [1, 2, 3] := by
  have hexec : (execFrom (PeerStream [1, 2, 3]) .tcpMapCb 0 (clientSyn 8192) (.connected 5)
      (handshake ++ [client 1002 0x10001 0x10 8192 [2, 3]])).any
      (fun c => c.tcb.irs.toNat + 1 + [1, 2, 3].length < 2 ^ 32 ∧ c.live ∧
        c.tcb.state = .established ∧ ¬c.trace.stored <+: [1, 2, 3]) = true := by
    decide +kernel
  obtain ⟨c, hreach, hc⟩ := reached_of_exec hexec
  exact ⟨c, hreach, of_decide_eq_true hc⟩

end Ptrtd
