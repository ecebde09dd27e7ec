import Ptrtd.Verification.Send.Stall

/-! # When a close completes

`FIN_WAIT_1` and `CLOSING` end when nothing is in flight and `rb_avail` says that the FIN is
behind. `LAST_ACK` ends when nothing is in flight, which also holds before the last bytes and
the FIN have been sent, and after a timeout. -/

namespace Ptrtd

variable {c c' : Conn} {i : Input} {s : Segment}

namespace Outlet

variable {o o' : Outlet} {u n : ℕ}

/-- A FIN that ends the stream has been sent. -/
def FinSent (o : Outlet) : Prop :=
  ∃ s ∈ o.sent, s.isFin = true ∧
    s.seq + BitVec.ofNat 32 s.data.length = o.iss + 1 + BitVec.ofNat 32 o.written.length

/-- The position after the FIN has been sent only with the FIN. -/
def FinKnown (o : Outlet) : Prop := o.Closing → o.high = o.written.length + 2 → o.FinSent

/-- `snd_una` is the ACK number of a segment, once the SYN is acknowledged. -/
def Acked (o : Outlet) : Prop :=
  o.una = o.iss ∨ ∃ s ∈ o.received, s.isAck = true ∧ s.ack = o.una

/-- All bytes and the FIN have been sent, and a segment has acknowledged the FIN. -/
structure Finished (o : Outlet) : Prop where
  transmitted : ∀ j < o.written.length, o.Transmitted j
  finSent : o.FinSent
  acked : ∃ s ∈ o.received, s.isAck = true ∧
    s.ack = o.iss + 1 + BitVec.ofNat 32 (o.written.length + 1)

/-- Nothing is in flight, and what is left to send is less than nothing: the FIN is sent. -/
def Done (o : Outlet) : Prop := o.una = o.nxt ∧ rbAvail o.outbuf o.nxt = -1

instance (o : Outlet) : Decidable o.Done := inferInstanceAs (Decidable (_ ∧ _))

theorem FinSent.of_eq (h : o.FinSent) (hiss : o'.iss = o.iss)
    (hsent : ∀ s ∈ o.sent, s ∈ o'.sent) (hwritten : o'.written = o.written) : o'.FinSent := by
  obtain ⟨s, hs, hfin, hend⟩ := h
  refine ⟨s, hsent s hs, hfin, ?_⟩
  rw [hiss, hwritten]
  exact hend

/-- Before the close the position after the FIN is out of reach. -/
theorem Regular.high_lt (h : o.Regular) (hopen : ¬o.Closing) :
    o.high < o.written.length + 2 := by
  by_cases hsyn : o.state = .synRecvd
  · have hone := (h.opening hsyn).2
    omega
  · have hest : o.state = .established := by
      by_contra hest
      exact hopen ⟨hsyn, hest⟩
    obtain ⟨u, n, htight⟩ := h.sending hsyn
    have hhigh := htight.tight
    rw [limit, if_pos hest] at hhigh
    omega

/-- Steps that send nothing. -/
theorem FinKnown.keep (h : o.FinKnown) (hreg : o.Regular) (hiss : o'.iss = o.iss)
    (hsent : o'.sent = o.sent) (hhigh : o'.high = o.high)
    (hwritten : o'.written = o.written ∨ ¬o.Closing ∧ ∃ x, o'.written = o.written ++ x) :
    o'.FinKnown := by
  intro _ hend
  rw [hhigh] at hend
  by_cases hclosing : o.Closing
  · have hsame := hwritten.resolve_right fun hs => hs.1 hclosing
    rw [hsame] at hend
    exact (h hclosing hend).of_eq hiss (fun s hs => hsent ▸ hs) hsame
  · -- the position is out of reach, and further bytes only move it away
    have hlt := hreg.high_lt hclosing
    have hle : o.written.length ≤ o'.written.length := by
      rcases hwritten with hsame | ⟨-, x, happend⟩
      · rw [hsame]
      · rw [happend, List.length_append]
        exact Nat.le_add_right _ _
    omega

/-- The next segment reaches the position only with a FIN. -/
theorem FinKnown.segment (h : o.FinKnown) (hreg : o.Regular) (hsyn : o.state ≠ .synRecvd)
    {fin push : Bool} (hdata : o.Chunk s.data) (hseq : s.seq = o.nxt)
    (hflags : s.flags = sendFlags push fin)
    (hfin : fin = true → rbAvail o.outbuf (o.nxt + BitVec.ofNat 32 s.data.length) = 0 ∧
      isClosingState o.state = true) :
    FinKnown
      { o.emit s with
        nxt := o.nxt + BitVec.ofNat 32 s.data.length + (if fin then 1 else 0) } := by
  intro hclosing hend
  obtain ⟨u, n, htight⟩ := hreg.sending hsyn
  obtain ⟨-, hhigh⟩ := htight.toSending.segment hdata hseq hflags hfin
  obtain ⟨-, hlen⟩ := htight.chunk hdata
  have hsent := htight.sent
  change (o.emit s).high = o.written.length + 2 at hend
  rw [hhigh] at hend
  cases fin with
  | false =>
      simp only [Bool.false_eq_true, if_false] at hend
      have hold : o.high = o.written.length + 2 := by omega
      exact (h hclosing hold).of_eq rfl (fun s hs => List.mem_append_left _ hs) rfl
  | true =>
      refine ⟨s, List.mem_append_right _ (List.mem_singleton_self s), isFin_of_sendFlags hflags, ?_⟩
      have hat := htight.nxt.add s.data.length
      rw [htight.fin hdata (hfin rfl).1, ← hseq] at hat
      exact hat.rebase

theorem FinKnown.step (h : o.FinKnown) (hreg : o.Regular) (hstep : o.Step i o') :
    o'.FinKnown := by
  cases hstep with
  | packet _ hsettled hmoved =>
      obtain ⟨b, st, una, nxt, buf, rfl⟩ := packet_eq hsettled hmoved
      exact h.keep hreg rfl rfl rfl (.inl rfl)
  | synAck hsyn => exact fun hclosing => absurd hsyn hclosing.1
  | segment hsyn hdata hseq hflags hfin => exact h.segment hreg hsyn hdata hseq hflags hfin
  | write hest => exact h.keep hreg rfl rfl rfl (.inr ⟨fun hs => hs.2 hest, _, rfl⟩)
  | abort hstate => exact fun hclosing => (hstate.elim hclosing.1 hclosing.2).elim
  | quiet | removed | reset | timeout | close => exact h.keep hreg rfl rfl rfl (.inl rfl)

theorem Acked.of_eq (h : o.Acked) (hiss : o'.iss = o.iss) (huna : o'.una = o.una)
    (hreceived : ∀ s ∈ o.received, s ∈ o'.received) : o'.Acked := by
  rcases h with heq | ⟨s, hs, hack, heq⟩
  · exact .inl (by rw [huna, hiss, heq])
  · exact .inr ⟨s, hreceived s hs, hack, heq.trans huna.symm⟩

theorem Acked.receive (h : o.Acked) (s : Segment) : ((o.receive s).ack s).Acked := by
  have hr : (o.receive s).Acked := h.of_eq rfl rfl fun x hx => List.mem_append_left _ hx
  by_cases hnew : (o.receive s).NewAck s
  · rw [Outlet.ack, if_pos hnew]
    exact .inr ⟨s, List.mem_append_right _ (List.mem_singleton_self s), hnew.1, rfl⟩
  · rw [Outlet.ack, if_neg hnew]
    exact hr

theorem Acked.step (h : o.Acked) (hstep : o.Step i o') : o'.Acked := by
  cases hstep with
  | @packet s _ _ _ _ hsettled hmoved =>
      have hack := h.receive s
      obtain ⟨b, st, rfl⟩ := hsettled.eq
      obtain ⟨st', rfl⟩ := hmoved.eq
      exact hack.of_eq rfl rfl fun _ hx => hx
  | reset => exact h.of_eq rfl rfl fun x hx => List.mem_append_left _ hx
  | quiet | removed | timeout | synAck | segment | write | close | abort =>
      exact h.of_eq rfl rfl fun _ hx => hx

/-! ## Completion -/

/-- A close completes: `FIN_WAIT_1` ends, through `FIN_WAIT_2` if the segment carries a FIN as
well, `CLOSING` becomes `TIME_WAIT`, or the block is deleted in `LAST_ACK`. -/
def Completes (o o' : Outlet) : Prop :=
  o.state = .finWait1 ∧ (o'.state = .finWait2 ∨ o'.state = .timeWait) ∨
    o.state = .closing ∧ o'.state = .timeWait ∨ o.state = .lastAck ∧ o'.live = false

instance (o o' : Outlet) : Decidable (o.Completes o') :=
  inferInstanceAs (Decidable (_ ∨ _ ∨ _))

theorem Completes.state (h : o.Completes o') :
    o.state = .finWait1 ∨ o.state = .closing ∨ o.state = .lastAck := by
  rcases h with ⟨hs, -⟩ | ⟨hs, -⟩ | ⟨hs, -⟩
  · exact .inl hs
  · exact .inr (.inl hs)
  · exact .inr (.inr hs)

/-- Steps that keep the state and the block complete nothing. -/
theorem not_completes (hlive : o.live = true) (hstate : o'.state = o.state)
    (hlive' : o'.live = o.live) : ¬o.Completes o' := by
  rintro (⟨hs, h | h⟩ | ⟨hs, h⟩ | ⟨-, h⟩)
  · rw [hstate, hs] at h
    cases h
  · rw [hstate, hs] at h
    cases h
  · rw [hstate, hs] at h
    cases h
  · rw [hlive', hlive] at h
    cases h

theorem Moved.done (h : o.Moved s o') (hclosing : o.Closing) (hdone : o.Done) :
    o'.Closing ∧ o'.Done := by
  refine ⟨h.state.2.2 hclosing, ?_⟩
  obtain ⟨st, rfl⟩ := h.eq
  exact hdone

/-- A segment completes the close only when everything is acknowledged; in `LAST_ACK` that is
taken as given. -/
theorem Settled.completes {o₁ : Outlet} (h : o.Settled s o₁) (hm : o₁.Moved s o')
    (hlive : o.live = true)
    (hwait : o.state = .lastAck → s.isAck = true → o.una = o.nxt → o.Done)
    (hcomplete : o.Completes o') : o'.Closing ∧ o'.Done := by
  cases h with
  | same =>
      exfalso
      cases hm with
      | same => exact not_completes hlive rfl rfl hcomplete
      | lastAck _ hs =>
          rcases hcomplete.state with hs' | hs' | hs' <;> rw [hs] at hs' <;> cases hs'
      | closing _ hs =>
          rcases hcomplete with ⟨-, h | h⟩ | ⟨-, h⟩ | ⟨hs', -⟩
          · cases h
          · cases h
          · cases h
          · rw [hs] at hs'
            cases hs'
      | timeWait _ hs =>
          rcases hcomplete.state with hs' | hs' | hs' <;> rw [hs] at hs' <;> cases hs'
  | opened _ _ hs =>
      rcases hcomplete.state with hs' | hs' | hs' <;> rw [hs] at hs' <;> cases hs'
  | deleted hflag heq hs =>
      have hclosing : Closing { o with live := false } := ⟨by rw [hs]; nofun, by rw [hs]; nofun⟩
      exact hm.done hclosing (hwait hs hflag heq)
  | finAcked _ heq _ havail => exact hm.done ⟨nofun, nofun⟩ ⟨heq, havail⟩
  | bothClosed _ heq _ havail => exact hm.done ⟨nofun, nofun⟩ ⟨heq, havail⟩

theorem Step.completes (h : o.Step i o') (hlive : o.live = true)
    (hrst : ∀ s now, i = .packet s now → s.isRst = false)
    (hwait : ∀ s now, i = .packet s now → o.state = .lastAck → s.isAck = true →
      (o.ack s).una = (o.ack s).nxt → (o.ack s).Done)
    (hcomplete : o.Completes o') : o'.Closing ∧ o'.Done := by
  cases h with
  | @packet s now _ _ _ hsettled hmoved =>
      obtain ⟨una, nxt, buf, hack⟩ := ack_eq o s
      have hstate := ack_state o s
      have hwait' := hwait s now rfl
      rw [receive_ack] at hsettled
      rw [← hstate] at hwait'
      have hlive' : ((o.ack s).receive s).live = true := by
        rw [hack]
        exact hlive
      refine hsettled.completes hmoved hlive' hwait' ?_
      have hsame : ((o.ack s).receive s).state = o.state := hstate
      rw [Completes, hsame]
      exact hcomplete
  | reset hr =>
      rw [hrst _ _ rfl] at hr
      cases hr
  | removed hs =>
      rcases hcomplete.state with hs' | hs' | hs' <;> rw [hs'] at hs <;> cases hs
  | close hs =>
      rcases hcomplete.state with hs' | hs' | hs' <;> rw [hs] at hs' <;> cases hs'
  | abort hs =>
      rcases hs with hs | hs <;> rcases hcomplete.state with hs' | hs' | hs' <;>
        rw [hs] at hs' <;> cases hs'
  | quiet | timeout | synAck | segment | write =>
      exact absurd hcomplete (not_completes hlive rfl rfl)

/-- What every step keeps while the peer acknowledges what was sent. -/
structure Closable (o : Outlet) : Prop where
  regular : o.Regular
  finKnown : o.FinKnown
  acked : o.Acked

/-- With nothing in flight and the FIN sent, everything is acknowledged. -/
theorem Closable.finished (h : o.Closable) (hclosing : o.Closing) (hdone : o.Done) :
    o.Finished := by
  obtain ⟨u, n, htight⟩ := h.regular.sending hclosing.1
  obtain ⟨heq, havail⟩ := hdone
  obtain ⟨-, havail'⟩ := htight.avail
  have hn := htight.eq_of_una_eq heq
  have hend : n = o.written.length + 2 := by omega
  have hhigh : o.high = o.written.length + 2 := by
    have hsent := htight.sent
    have hle := htight.tight
    have hlimit := o.limit_le
    omega
  refine ⟨fun j hj => htight.transmitted j (by omega) hj, h.finKnown hclosing hhigh, ?_⟩
  have huna := htight.una
  rcases h.acked with hiss | ⟨s, hs, hflag, hack⟩
  · rw [hiss] at huna
    omega
  · refine ⟨s, hs, hflag, ?_⟩
    have hat := htight.nxt
    rw [hend, ← heq, ← hack, show o.written.length + 2 = 1 + (o.written.length + 1) by omega] at hat
    exact hat.rebase

end Outlet

/-- In `LAST_ACK` no segment is taken for the last ACK while data or the FIN is not sent. -/
def WaitsForFin (c : Conn) : Input → Prop
  | .packet s _ => c.tcb.state = .lastAck → s.isAck = true →
      (c.outlet.ack s).una = (c.outlet.ack s).nxt → (c.outlet.ack s).Done
  | _ => True

instance (c : Conn) : (i : Input) → Decidable (WaitsForFin c i)
  | .packet _ _ => inferInstanceAs (Decidable (_ → _))
  | .timeEvent _ | .fdEvent _ _ | .alwaysEvent _ _ | .call _ | .others _ => isTrue trivial

/-- A peer that acknowledges only what was sent and sends no RST, and sequence numbers that do
not wrap. -/
def Resetless (c : Conn) (i : Input) : Prop :=
  AcksSent c i ∧ InSpace c ∧ match i with
    | .packet s _ => s.isRst = false
    | _ => True

instance (c : Conn) : (i : Input) → Decidable (Resetless c i)
  | .packet _ _ | .timeEvent _ | .fdEvent _ _ | .alwaysEvent _ _ | .call _ | .others _ =>
      inferInstanceAs (Decidable (_ ∧ _ ∧ _))

/-- The condition on a run: the SYN/ACK is sent once, and `LAST_ACK` waits for the FIN. -/
def ClosesFully (c : Conn) (i : Input) : Prop := Resetless c i ∧ SynAckOnce c i ∧ WaitsForFin c i

instance (c : Conn) (i : Input) : Decidable (ClosesFully c i) :=
  inferInstanceAs (Decidable (_ ∧ _ ∧ _))

namespace Outlet

theorem Closable.step {o : Outlet} (h : c.outlet.Closable) (hok : ClosesFully c i)
    (hstep : c.outlet.Step i o) : o.Closable := by
  obtain ⟨⟨hacks, hspace, -⟩, honce, -⟩ := hok
  refine ⟨h.regular.step honce ?_ ?_ hstep, h.finKnown.step h.regular hstep, h.acked.step hstep⟩
  · rintro s now rfl hrst hnew
    exact (hacks.ack_toNat hspace hrst hnew.1).2
  · rintro s now rfl hrst hflag -
    obtain ⟨hpos, hle⟩ := hacks hrst hflag
    exact hpos.trans hle

theorem Closable.fresh (isn : Uint) (syn : Segment) : (Outlet.fresh isn syn).Closable :=
  ⟨.fresh isn syn, fun hs => absurd rfl hs.1, .inl rfl⟩

theorem Closable.abort {o : Outlet} (h : o.Closable) (hsyn : o.state = .synRecvd)
    (hseq : s.seq = o.nxt) (hdata : s.data = []) (hflags : s.flags = 0x14) :
    Closable { o.emit s with live := false } :=
  ⟨h.regular.abort hsyn hseq hdata hflags, fun hs => absurd hsyn hs.1,
    h.acked.of_eq rfl rfl fun _ hx => hx⟩

end Outlet

/-- In every run with a single SYN/ACK whose `LAST_ACK` waits for the FIN, a close completes
only when all bytes and the FIN have been sent and acknowledged. -/
theorem finished_of_closesFully (h : Reached ClosesFully c) (hok : ClosesFully c i)
    (hstep : step c i = some c') (hcomplete : c.outlet.Completes c'.outlet) :
    c'.outlet.Finished := by
  have hclosable : c.outlet.Closable :=
    h.outlet_invariant .fresh (fun _ _ hinv hsyn hseq hdata hflags =>
      hinv.abort hsyn hseq hdata hflags)
      fun _ _ _ hinv hok' _ hs => hinv.step hok' hs
  have htimer : TimerOk False c := h.invariant (fun _ _ => .of_start)
    fun _ _ _ hwf hinv _ hl hs => hinv.stepped hwf hl False.elim hs
  obtain ⟨hlive, hstepped⟩ := step_cases hstep
  have hout := step_outlet (.of_reached h) htimer hlive hstepped
  have hnext : c'.outlet.Closable := hclosable.step hok hout
  obtain ⟨hclosing, hdone⟩ := hout.completes hlive
    (by rintro s now rfl; exact hok.1.2.2) (by rintro s now rfl; exact hok.2.2) hcomplete
  exact hnext.finished hclosing hdone

/-- A byte and a FIN, acknowledged together. -/
theorem finished_of_closesFully_byte : ∃ c i c', Reached ClosesFully c ∧ step c i = some c' ∧
    c.outlet.Completes c'.outlet ∧ c'.trace.written = [7] ∧ c'.outlet.Finished := by
  have hexec : (execFrom ClosesFully .tcpMapCb 0 (clientSyn 8) (.connected 5)
      (handshake ++ [.fdEvent 1 (.read (.data [7])), .alwaysEvent 2 ⟨0, 0⟩,
        .fdEvent 1 (.read .eof), .alwaysEvent 4 ⟨0, 0⟩])).any
      (fun c => ClosesFully c (client 1001 0x10003 0x10 8 []) ∧
        (step c (client 1001 0x10003 0x10 8 [])).any (fun c' =>
          c.outlet.Completes c'.outlet ∧ c'.trace.written = [7])) = true := by
    decide +kernel
  obtain ⟨c, hreach, hc⟩ := reached_of_exec hexec
  obtain ⟨hok, hnext⟩ := of_decide_eq_true hc
  obtain ⟨c', hstep, hc'⟩ := (Option.any_eq_true _ _).mp hnext
  obtain ⟨hcomplete, hwritten⟩ := of_decide_eq_true hc'
  exact ⟨c, _, c', hreach, hstep, hcomplete, hwritten,
    finished_of_closesFully hreach hok hstep hcomplete⟩

/-- Bytes were written, but no segment with data was sent. -/
def Unsent (o : Outlet) : Prop := o.written ≠ [] ∧ ∀ s ∈ o.sent, s.data = []

instance (o : Outlet) : Decidable (Unsent o) := inferInstanceAs (Decidable (_ ∧ _))

theorem Unsent.not_finished {o : Outlet} (h : Unsent o) : ¬o.Finished := by
  intro hfinished
  obtain ⟨s, hs, k, -, hle, hlt⟩ := hfinished.transmitted 0 (List.length_pos_of_ne_nil h.1)
  rw [h.2 s hs, List.length_nil] at hlt
  omega

/-- In `LAST_ACK` any ACK ends the connection before the byte is sent. After two SYN/ACKs the
byte lies before `snd_nxt` and is never sent, while the FIN is sent and acknowledged. -/
theorem completes_unsent :
    (∃ c i c', Reached Resetless c ∧ Resetless c i ∧ step c i = some c' ∧ c.tcb.state = .lastAck ∧
      c.outlet.Completes c'.outlet ∧ ¬c'.outlet.Finished) ∧
    ∃ c i c', Reached Resetless c ∧ Resetless c i ∧ step c i = some c' ∧ c.tcb.state = .finWait1 ∧
      c.outlet.Completes c'.outlet ∧ ¬c'.outlet.Finished := by
  constructor
  · have hexec : (execFrom Resetless .tcpMapCb 0 (clientSyn 8) (.connected 5)
        (handshake ++ [.fdEvent 1 (.read (.data [7])), client 1001 0x10001 0x11 8 []])).any
        (fun c => Resetless c (client 1002 0x10001 0x10 8 []) ∧ c.tcb.state = .lastAck ∧
          (step c (client 1002 0x10001 0x10 8 [])).any (fun c' =>
            c.outlet.Completes c'.outlet ∧ Unsent c'.outlet)) = true := by
      decide +kernel
    obtain ⟨c, hreach, hc⟩ := reached_of_exec hexec
    obtain ⟨hok, hstate, hnext⟩ := of_decide_eq_true hc
    obtain ⟨c', hstep, hc'⟩ := (Option.any_eq_true _ _).mp hnext
    obtain ⟨hcomplete, hunsent⟩ := of_decide_eq_true hc'
    exact ⟨c, _, c', hreach, hok, hstep, hstate, hcomplete, hunsent.not_finished⟩
  · have hexec : (execFrom Resetless .tcpMapCb 0 (clientSyn 8) (.connected 5)
        [.alwaysEvent 0 ⟨0, 0⟩, client 1001 0 0 0 [], client 1001 0 0 8 [], .alwaysEvent 1 ⟨0, 0⟩,
          client 1001 0x10002 0x10 8 [], .fdEvent 2 (.read (.data [7])), .alwaysEvent 3 ⟨0, 0⟩,
          .fdEvent 2 (.read .eof), .alwaysEvent 4 ⟨0, 0⟩]).any
        (fun c => Resetless c (client 1001 0x10003 0x10 8 []) ∧ c.tcb.state = .finWait1 ∧
          (step c (client 1001 0x10003 0x10 8 [])).any (fun c' =>
            c.outlet.Completes c'.outlet ∧ Unsent c'.outlet)) = true := by
      decide +kernel
    obtain ⟨c, hreach, hc⟩ := reached_of_exec hexec
    obtain ⟨hok, hstate, hnext⟩ := of_decide_eq_true hc
    obtain ⟨c', hstep, hc'⟩ := (Option.any_eq_true _ _).mp hnext
    obtain ⟨hcomplete, hunsent⟩ := of_decide_eq_true hc'
    exact ⟨c, _, c', hreach, hok, hstep, hstate, hcomplete, hunsent.not_finished⟩

end Ptrtd
