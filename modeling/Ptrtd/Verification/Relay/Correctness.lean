import Ptrtd.Verification.Receive.Correctness

/-! # From `inbuf` to the IPv4 socket

`handle_fd_can_write` empties `inbuf` before it knows how much the socket takes, and closing
the map discards what is left in `inbuf`. As long as the socket takes everything it is
offered, the bytes it has accepted are a prefix of the bytes received; and when besides
nothing is left in `inbuf` when the map is closed, they are all of them. -/

namespace Ptrtd

variable {c c' : Conn} {i : Input}

/-- The socket takes all the bytes it is offered, or the connection is given up. -/
def FullWrite (c : Conn) : Input → Prop
  | .fdEvent _ (.write (.wrote n)) => n = 0 ∨ n = c.tcb.inbuf.used
  | .fdEvent _ (.write .again) => c.tcb.inbuf.used = 0
  | _ => True

instance (c : Conn) (i : Input) : Decidable (FullWrite c i) := by
  unfold FullWrite
  split <;> infer_instance

/-- The bytes received are those the socket has accepted and, while there is a map, those
still in `inbuf`. -/
structure Relays (c : Conn) : Prop where
  mapped : c.map.isSome = true → c.trace.stored = c.trace.relayed ++ c.tcb.inbuf.content
  relayed : c.trace.relayed <+: c.trace.stored

theorem Relays.of_start {app : TcpCallback} (h : Start app c) : Relays c := by
  obtain ⟨irs, mapped, closed, -, hin⟩ := start_intake h
  have hstored : c.trace.stored = [] := congrArg Intake.stored hin
  have hrelayed : c.trace.relayed = [] := congrArg Intake.relayed hin
  have hbuf : c.tcb.inbuf = rbSet (rbNew 16384) (irs + 1) := congrArg Intake.inbuf hin
  refine ⟨fun _ => ?_, by rw [hrelayed]; exact List.nil_prefix⟩
  rw [hstored, hrelayed, hbuf]
  rfl

/-- All of `inbuf` is offered to the socket: the transfer buffer is larger. -/
theorem tcpRead_all (hwf : WellFormed c) {d : List Uchar}
    (h : tcpRead c tbSize = some (c', d)) :
    d = c.tcb.inbuf.content ∧ c'.tcb.inbuf.content = [] := by
  have hspec := tcpRead_spec hwf.inbuf h
  have hlen := Buffer.content_length hwf.inbuf.ok
  have hused := hwf.inbuf.ok.used_le
  have hsize := hwf.inSize
  have hd : d = c.tcb.inbuf.content := by
    rw [hspec.data]
    exact List.take_of_length_le (by rw [tbSize]; omega)
  refine ⟨hd, ?_⟩
  rw [hspec.content, hd]
  exact List.drop_length

theorem Relays.of_eq (h : Relays c) (hbuf : c'.tcb.inbuf = c.tcb.inbuf)
    (hstored : c'.trace.stored = c.trace.stored) (hrelayed : c'.trace.relayed = c.trace.relayed)
    (hmap : c'.map.isSome = c.map.isSome) : Relays c' := by
  refine ⟨fun hm => ?_, by rw [hrelayed, hstored]; exact h.relayed⟩
  rw [hbuf, hstored, hrelayed]
  exact h.mapped (hmap ▸ hm)

theorem Relays.step (hwf : WellFormed c) (h : Relays c) (hfull : FullWrite c i)
    (hstep : IntakeStep c i c') : Relays c' := by
  have hdetach : ∀ {a a' : Conn}, a.trace.relayed <+: a.trace.stored → Detached a a' →
      Relays a' := by
    intro a a' hpre hdet
    refine ⟨fun hm => ?_, by rw [hdet.relayed, hdet.stored]; exact hpre⟩
    have hnone : a'.map.isSome = false := hdet.mapped
    rw [hnone] at hm
    cases hm
  cases hstep with
  | idle hin =>
      exact h.of_eq (congrArg Intake.inbuf hin) (congrArg Intake.stored hin)
        (congrArg Intake.relayed hin) (congrArg Intake.mapped hin)
  | unattached _ hin =>
      exact h.of_eq (congrArg Intake.inbuf hin) (congrArg Intake.stored hin)
        (congrArg Intake.relayed hin) (congrArg Intake.mapped hin)
  | @data s now c' r w x hatt hacc hst hin =>
      have hbuf : c'.tcb.inbuf = r := congrArg Intake.inbuf hin
      have hstored : c'.trace.stored = c.trace.stored ++ x := congrArg Intake.stored hin
      have hrelayed : c'.trace.relayed = c.trace.relayed := congrArg Intake.relayed hin
      have hmap : c'.map.isSome = c.map.isSome := congrArg Intake.mapped hin
      refine ⟨fun hm => ?_, ?_⟩
      · rw [hstored, hrelayed, hbuf, hst.content hwf.inbuf, h.mapped (hmap ▸ hm),
          List.append_assoc]
      · rw [hrelayed, hstored]
        exact h.relayed.trans (List.prefix_append _ _)
  | @fin s now a c' r w x hatt hacc _ hst hin hdet =>
      have hstored : a.trace.stored = c.trace.stored ++ x := congrArg Intake.stored hin
      have hrelayed : a.trace.relayed = c.trace.relayed := congrArg Intake.relayed hin
      refine hdetach ?_ hdet
      rw [hrelayed, hstored]
      exact h.relayed.trans (List.prefix_append _ _)
  | reset _ hdet => exact hdetach h.relayed hdet
  | eof _ _ hdet => exact hdetach h.relayed hdet
  | notConnected hdet => exact hdetach h.relayed hdet
  | appClose _ hdet => exact hdetach h.relayed hdet
  | appRead hcb hread =>
      obtain ⟨htr, hmap, -⟩ := tcpRead_intake hread
      refine ⟨fun hm => ?_, htr ▸ h.relayed⟩
      have hcb' := hwf.map (hmap ▸ hm)
      rw [hcb] at hcb'
      cases hcb'
  | @write addr r d a c' x hm hread hr hin =>
      obtain ⟨hd, hempty⟩ := tcpRead_all hwf hread
      obtain ⟨htr, -⟩ := tcpRead_intake hread
      have hbuf : c'.tcb.inbuf = a.tcb.inbuf := congrArg Intake.inbuf hin
      have hstored : c'.trace.stored = a.trace.stored := congrArg Intake.stored hin
      have hrelayed : c'.trace.relayed = a.trace.relayed ++ x := congrArg Intake.relayed hin
      have hlen := Buffer.content_length hwf.inbuf.ok
      -- everything that left `inbuf` has been accepted
      have hx : x = c.tcb.inbuf.content := by
        rcases hr with ⟨rfl, rfl⟩ | ⟨n, rfl, hne, hn, rfl⟩
        · exact (Buffer.content_eq_nil hwf.inbuf.ok hfull).symm
        · have hn : n = c.tcb.inbuf.used := hfull.resolve_left hne
          rw [hd, hn, ← hlen, List.take_length]
      have hall : c'.trace.stored = c'.trace.relayed := by
        rw [hstored, hrelayed, htr, h.mapped hm, hx]
      refine ⟨fun _ => ?_, hall ▸ List.prefix_rfl⟩
      rw [hbuf, hempty, List.append_nil]
      exact hall
  | writeFailed _ _ hread hdet =>
      obtain ⟨htr, -⟩ := tcpRead_intake hread
      exact hdetach (htr ▸ h.relayed) hdet

/-- As long as every write is full, the socket has accepted a prefix of what was received. -/
theorem relayed_prefix_of_fullWrite (h : Reached FullWrite c) :
    c.trace.relayed <+: c.trace.stored := by
  have hinv : Relays c := h.invariant (fun _ _ => .of_start)
    fun _ _ _ hwf hinv hok hlive hstep => hinv.step hwf hok (step_intake hwf hlive hstep)
  exact hinv.relayed

theorem relayed_prefix_of_fullWrite_twice : ∃ c, Reached FullWrite c ∧
    c.trace.relayed = [1, 2, 3] ∧ c.trace.relayed <+: c.trace.stored := by
  have hexec : (execFrom FullWrite .tcpMapCb 0 (clientSyn 8192) (.connected 5)
      (handshake ++
        [client 1001 0x10001 0x10 8192 [1], .fdEvent 3 (.write (.wrote 1)),
          client 1002 0x10001 0x10 8192 [2, 3], .fdEvent 4 (.write (.wrote 2))])).any
      (fun c => c.trace.relayed = [1, 2, 3]) = true := by
    decide +kernel
  obtain ⟨c, hreach, hc⟩ := reached_of_exec hexec
  exact ⟨c, hreach, of_decide_eq_true hc, relayed_prefix_of_fullWrite hreach⟩

/-- The socket is not ready for the first byte, and takes the second. -/
theorem blocked_byte_skipped : ∃ c, Reached Transition.Always c ∧
    ¬c.trace.relayed <+: c.trace.stored := by
  have hexec : (execFrom Transition.Always .tcpMapCb 0 (clientSyn 8192) (.connected 5)
      (handshake ++
        [client 1001 0x10001 0x10 8192 [1], .fdEvent 3 (.write .again),
          client 1002 0x10001 0x10 8192 [2], .fdEvent 3 (.write (.wrote 1))])).any
      (fun c => ¬c.trace.relayed <+: c.trace.stored) = true := by
    decide +kernel
  obtain ⟨c, hreach, hc⟩ := reached_of_exec hexec
  exact ⟨c, hreach, of_decide_eq_true hc⟩

/-! ## Closing the map -/

/-- The peer sends no RST, and the IPv4 socket reports no error. -/
def Orderly (_c : Conn) : Input → Prop
  | .packet s _ => s.isRst = false
  | .fdEvent _ (.read r) => r ≠ .error
  | .fdEvent _ (.write r) => r ≠ .error
  | .fdEvent _ (.connect ok) => ok = true
  | _ => True

/-- Nothing is left for the socket when the connection is closed: the socket takes all it
is offered, and `inbuf` is empty when the server ends its stream and when the client's FIN
is accepted, which carries no data. -/
def Drained (c : Conn) : Input → Prop
  | .packet s _ => Accepts c s → s.isFin = true → s.data = [] ∧ c.tcb.inbuf.used = 0
  | .fdEvent _ (.read .eof) => c.tcb.inbuf.used = 0
  | .fdEvent _ (.write (.wrote n)) => n = c.tcb.inbuf.used
  | .fdEvent _ (.write .again) => c.tcb.inbuf.used = 0
  | _ => True

instance (c : Conn) : (i : Input) → Decidable (Orderly c i)
  | .packet _ _ | .fdEvent _ (.connect _) => inferInstanceAs (Decidable (_ = _))
  | .fdEvent _ (.read _) | .fdEvent _ (.write _) => inferInstanceAs (Decidable (_ ≠ _))
  | .timeEvent _ | .alwaysEvent _ _ | .call _ | .others _ => isTrue trivial

instance (c : Conn) : (i : Input) → Decidable (Drained c i)
  | .packet _ _ => inferInstanceAs (Decidable (_ → _))
  | .fdEvent _ (.read .eof) | .fdEvent _ (.write (.wrote _)) | .fdEvent _ (.write .again) =>
      inferInstanceAs (Decidable (_ = _))
  | .fdEvent _ (.read (.data _)) | .fdEvent _ (.read .again) | .fdEvent _ (.read .error)
  | .fdEvent _ (.write .error) | .fdEvent _ (.connect _) | .timeEvent _ | .alwaysEvent _ _
  | .call _ | .others _ => isTrue trivial

theorem Drained.fullWrite (h : Drained c i) : FullWrite c i := by
  unfold FullWrite
  unfold Drained at h
  grind

/-- When the map has been closed, everything received has been passed on. -/
def ClosedEmpty (c : Conn) : Prop :=
  c.trace.closed = true → ¬c.Attached ∧ c.trace.relayed = c.trace.stored

theorem ClosedEmpty.of_start {app : TcpCallback} (h : Start app c) : ClosedEmpty c := by
  obtain ⟨irs, mapped, closed, hclosed, hin⟩ := start_intake h
  have hstored : c.trace.stored = [] := congrArg Intake.stored hin
  have hrelayed : c.trace.relayed = [] := congrArg Intake.relayed hin
  have heq : c.trace.closed = closed := congrArg Intake.closed hin
  intro hc
  exact ⟨hclosed (heq ▸ hc), by rw [hstored, hrelayed]⟩

/-- Detaching with nothing left in `inbuf`. -/
theorem ClosedEmpty.detach {a : Conn} (hclosed : a.trace.closed = true → False)
    (hempty : a.map.isSome = true → a.trace.relayed = a.trace.stored) (hdet : Detached a c') :
    ClosedEmpty c' := by
  intro hc
  refine ⟨hdet.attached, ?_⟩
  rw [hdet.relayed, hdet.stored]
  rcases hdet.closed with h | h
  · exact absurd (h ▸ hc) hclosed
  · exact hempty h

theorem ClosedEmpty.step (hwf : WellFormed c) (hlive : c.live = true) (hrel : Relays c)
    (h : ClosedEmpty c) (hord : Orderly c i) (hdr : Drained c i) (hstep : IntakeStep c i c') :
    ClosedEmpty c' := by
  -- a map or an attached application means that nothing has been closed yet
  have hopen : c.Attached → c.trace.closed = true → False := fun hatt hc => (h hc).1 hatt
  have hmapped : c.map.isSome = true → c.Attached := fun hm => ⟨hlive, hwf.attached hm⟩
  have hempty : c.tcb.inbuf.used = 0 → c.map.isSome = true → c.trace.relayed = c.trace.stored := by
    intro hused hm
    rw [hrel.mapped hm, Buffer.content_eq_nil hwf.inbuf.ok hused, List.append_nil]
  cases hstep with
  | idle hin hatt =>
      have hstored : c'.trace.stored = c.trace.stored := congrArg Intake.stored hin
      have hrelayed : c'.trace.relayed = c.trace.relayed := congrArg Intake.relayed hin
      have hclosed : c'.trace.closed = c.trace.closed := congrArg Intake.closed hin
      intro hc
      obtain ⟨hnot, heq⟩ := h (hclosed ▸ hc)
      exact ⟨mt hatt hnot, by rw [hstored, hrelayed, heq]⟩
  | unattached hnot hin =>
      have hstored : c'.trace.stored = c.trace.stored := congrArg Intake.stored hin
      have hrelayed : c'.trace.relayed = c.trace.relayed := congrArg Intake.relayed hin
      have hclosed : c'.trace.closed = c.trace.closed := congrArg Intake.closed hin
      intro hc
      obtain ⟨-, heq⟩ := h (hclosed ▸ hc)
      exact ⟨hnot, by rw [hstored, hrelayed, heq]⟩
  | data hatt _ _ hin =>
      have hclosed : c'.trace.closed = c.trace.closed := congrArg Intake.closed hin
      exact fun hc => (hopen hatt (hclosed ▸ hc)).elim
  | @fin s now a c' r w x hatt hacc hfin hst hin hdet =>
      have hstored : a.trace.stored = c.trace.stored ++ x := congrArg Intake.stored hin
      have hrelayed : a.trace.relayed = c.trace.relayed := congrArg Intake.relayed hin
      have hclosed : a.trace.closed = c.trace.closed := congrArg Intake.closed hin
      have hmap : a.map.isSome = c.map.isSome := congrArg Intake.mapped hin
      obtain ⟨hdata, hused⟩ := hdr hacc hfin
      have hx : x = [] := by
        rcases hst with ⟨-, -, -, hx⟩ | ⟨hpos, -⟩
        · exact hx
        · rw [hdata] at hpos
          cases hpos
      refine .detach (fun hc => hopen hatt (hclosed ▸ hc)) (fun hm => ?_) hdet
      rw [hrelayed, hstored, hx, List.append_nil]
      exact hempty hused (hmap ▸ hm)
  | reset hrst _ =>
      have := hord
      rw [Orderly, hrst] at this
      cases this
  | eof hm hr hdet =>
      rcases hr with rfl | rfl
      · exact .detach (hopen (hmapped hm)) (hempty hdr) hdet
      · exact absurd rfl hord
  | notConnected => cases hord
  | appClose hcb hdet =>
      have hatt : c.Attached := ⟨hlive, hwf.cb.mp (by rw [hcb, Option.isSome_some])⟩
      refine .detach (hopen hatt) (fun hm => ?_) hdet
      have hcb' := hwf.map hm
      rw [hcb] at hcb'
      cases hcb'
  | appRead hcb hread =>
      obtain ⟨htr, -, -, -, -, hatt⟩ := tcpRead_intake hread
      intro hc
      obtain ⟨hnot, heq⟩ := h (htr ▸ hc)
      exact ⟨mt hatt.mp hnot, by rw [htr, heq]⟩
  | write hm hread _ hin =>
      obtain ⟨htr, -⟩ := tcpRead_intake hread
      have hclosed := congrArg Intake.closed hin
      exact fun hc => (hopen (hmapped hm) (htr ▸ hclosed.symm.trans hc)).elim
  | writeFailed hm hr hread hdet =>
      obtain ⟨htr, hmap, -⟩ := tcpRead_intake hread
      rcases hr with rfl | rfl
      · exact absurd rfl hord
      · refine .detach (fun hc => hopen (hmapped hm) (htr ▸ hc)) (fun _ => ?_) hdet
        rw [htr]
        exact hempty hdr.symm hm

/-- On an orderly connection that is closed only when `inbuf` is empty, every byte received
has been passed on when the socket is closed. -/
theorem relayed_all_of_drained (h : Reached (fun c i => Orderly c i ∧ Drained c i) c)
    (hclosed : c.trace.closed = true) : c.trace.relayed = c.trace.stored := by
  have hinv : (fun t => Relays t ∧ ClosedEmpty t) c := by
    apply h.invariant
    · exact fun _ _ hs => ⟨.of_start hs, .of_start hs⟩
    · intro _ _ _ hwf hinv hok hlive hstep
      have hin := step_intake hwf hlive hstep
      exact ⟨hinv.1.step hwf hok.2.fullWrite hin, hinv.2.step hwf hlive hinv.1 hok.1 hok.2 hin⟩
  exact (hinv.2 hclosed).2

theorem relayed_all_of_drained_fin : ∃ c, Reached (fun c i => Orderly c i ∧ Drained c i) c ∧
    c.trace.stored = [1, 2] ∧ c.trace.relayed = c.trace.stored := by
  have hexec : (execFrom (fun c i => Orderly c i ∧ Drained c i) .tcpMapCb 0 (clientSyn 8192)
      (.connected 5)
      (handshake ++
        [client 1001 0x10001 0x10 8192 [1, 2], .fdEvent 3 (.write (.wrote 2)),
          client 1003 0x10001 0x11 8192 []])).any
      (fun c => c.trace.stored = [1, 2] ∧ c.trace.closed = true) = true := by
    decide +kernel
  obtain ⟨c, hreach, hc⟩ := reached_of_exec hexec
  obtain ⟨hstored, hclosed⟩ := of_decide_eq_true hc
  exact ⟨c, hreach, hstored, relayed_all_of_drained hreach hclosed⟩

/-- One segment carries the last byte and the FIN. Both are acknowledged, the IPv4 socket is
closed, and the byte was never written to it. -/
theorem fin_discards_byte : ∃ c, Reached Orderly c ∧ c.trace.closed = true ∧
    (∃ s ∈ c.trace.sent, s.isAck = true ∧ s.ack = c.tcb.irs + 3) ∧ c.trace.stored = [7] ∧
      c.trace.relayed ≠ c.trace.stored := by
  have hexec : (execFrom Orderly .tcpMapCb 0 (clientSyn 8192) (.connected 5)
      (handshake ++ [client 1001 0x10001 0x19 8192 [7], .alwaysEvent 2 ⟨0, 0⟩])).any
      (fun c => c.trace.closed = true ∧
        (∃ s ∈ c.trace.sent, s.isAck = true ∧ s.ack = c.tcb.irs + 3) ∧ c.trace.stored = [7] ∧
        c.trace.relayed ≠ c.trace.stored) = true := by
    decide +kernel
  obtain ⟨c, hreach, hc⟩ := reached_of_exec hexec
  exact ⟨c, hreach, of_decide_eq_true hc⟩

end Ptrtd
